import Mathlib
import Orbit.Lib.Pool
import Orbit.Runtime.Proof.AcceptQueue
import Orbit.Runtime.Server

/-!
# Shutdown

Every accepted socket is in one place: in the acceptor's hand, in a ring, among a worker's clients, or
closed (`Server.Inv`). A worker leaves its loop only when its ring is empty and it has no clients, but
the acceptor may still store a socket into the ring after that. Once all parties have left, every
accepted socket is closed and no ring holds one exactly when no push did so
(`shutdown_settled_iff`).
-/

namespace Runtime

open Lib.Fifo

section
variable {σ : Type}

/-! ## Operations under way -/

/-- The socket that a push is about. -/
def Push.item : Push σ → Option σ
  | .idle => none
  | .call s | .loaded s _ | .room s _ | .written s _ => some s

/-- The next store of a push is the one that makes the socket visible. -/
def Push.stores : Push σ → Bool
  | .written _ _ => true
  | _ => false

def Pop.inPop : Pop σ → Bool
  | .call | .loaded _ | .other _ | .read _ _ => true
  | _ => false

def Pop.inEmpty : Pop σ → Bool
  | .callEmpty | .loadedEmpty _ => true
  | _ => false

section
variable {r : Ring σ}

theorem produce_consumer : r.produce.1.consumer = r.consumer := by
  rw [Ring.produce]
  cases r.producer with
  | loaded s t =>
    dsimp only
    split_ifs <;> rfl
  | _ => rfl

theorem consume_producer : r.consume.1.producer = r.producer := by
  rw [Ring.consume]
  cases r.consumer with
  | loaded h =>
    dsimp only
    split_ifs <;> rfl
  | _ => rfl

/-- A push goes on with its socket or ends with it. -/
theorem produce_item {s : σ} (h : r.producer.item = some s) :
    (r.produce.2 = none ∧ r.produce.1.producer.item = some s ∧ r.producer.stores = false) ∨
    (r.produce.2 = some (.full s) ∧ r.produce.1.producer.item = none ∧
      r.producer.stores = false) ∨
    (r.produce.2 = some (.pushed s) ∧ r.produce.1.producer.item = none ∧
      r.producer.stores = true) := by
  rw [Ring.produce]
  cases hp : r.producer with
  | idle => rw [hp] at h; cases h
  | call s' =>
    obtain rfl : s' = s := by rw [hp] at h; exact Option.some.inj h
    exact .inl ⟨rfl, rfl, rfl⟩
  | loaded s' t =>
    obtain rfl : s' = s := by rw [hp] at h; exact Option.some.inj h
    dsimp only
    split_ifs
    · exact .inr (.inl ⟨rfl, rfl, rfl⟩)
    · exact .inl ⟨rfl, rfl, rfl⟩
  | room s' t =>
    obtain rfl : s' = s := by rw [hp] at h; exact Option.some.inj h
    exact .inl ⟨rfl, rfl, rfl⟩
  | written s' t =>
    obtain rfl : s' = s := by rw [hp] at h; exact Option.some.inj h
    exact .inr (.inr ⟨rfl, rfl, rfl⟩)

theorem consume_inPop (h : r.consumer.inPop = true) :
    (r.consume.2 = none ∧ r.consume.1.consumer.inPop = true) ∨
    (r.consume.2 = some .nothing ∧ r.consume.1.consumer = .idle) ∨
    ∃ s, r.consume.2 = some (.popped s) ∧ r.consume.1.consumer = .idle := by
  rw [Ring.consume]
  cases hp : r.consumer with
  | idle | callEmpty | loadedEmpty _ => rw [hp] at h; cases h
  | call | other _ => exact .inl ⟨rfl, rfl⟩
  | loaded h' =>
    dsimp only
    split_ifs
    · exact .inr (.inl ⟨rfl, rfl⟩)
    · exact .inl ⟨rfl, rfl⟩
  | read h' out => exact .inr (.inr ⟨out, rfl, rfl⟩)

theorem consume_inEmpty (h : r.consumer.inEmpty = true) :
    (r.consume.2 = none ∧ r.consume.1.consumer.inEmpty = true) ∨
    ∃ b, r.consume.2 = some (.isEmpty b) ∧ r.consume.1.consumer = .idle := by
  rw [Ring.consume]
  cases hp : r.consumer with
  | idle | call | loaded _ | other _ | read _ _ => rw [hp] at h; cases h
  | callEmpty => exact .inl ⟨rfl, rfl⟩
  | loadedEmpty h' => exact .inr ⟨_, rfl, rfl⟩

theorem pop_idle (h : r.consumer = .idle) : r.pop = { r with consumer := .call } := by
  rw [Ring.pop, h]

theorem empty_idle (h : r.consumer = .idle) : r.empty = { r with consumer := .callEmpty } := by
  rw [Ring.empty, h]

theorem push_idle {s : σ} (h : r.producer = .idle) : r.push s = { r with producer := .call s } := by
  rw [Ring.push, h]

end

/-! ## A worker -/

theorem swapRemove_perm {α : Type} {l : List α} {i : Nat} {c : α} (h : l[i]? = some c) :
    (c :: swapRemove l i).Perm l := by
  rw [swapRemove]
  cases hlast : l.getLast? with
  | none =>
    rw [List.getLast?_eq_none_iff.mp hlast] at h
    cases h
  | some x => exact Lib.SlotPool.compact_perm h hlast

/-- The sockets of a worker whose ring holds `q`. -/
def Worker.socks (wk : Worker σ) (q : List σ) : Multiset σ :=
  ↑q + ↑(wk.clients.map Client.sock)

/-- The operation a worker's consumer is in. -/
def WorkerPc.Runs (pc : WorkerPc) (p : Pop σ) : Prop :=
  match pc with
  | .testQueue => p.inEmpty = true
  | .adopt => p.inPop = true
  | _ => p = .idle

structure Worker.Holds (wk : Worker σ) (q : List σ) : Prop where
  ring : wk.ring.Holds q
  runs : wk.pc.Runs wk.ring.consumer
  drained : wk.pc = .testQueue ∨ wk.pc = .exited → wk.clients = []

/-- What a turn does to a worker whose ring holds `q`: it keeps its sockets or closes them, and it
leaves its loop only when it has none. -/
structure Worker.Goes (wk : Worker σ) (q : List σ) (next : Worker σ × List σ) (q' : List σ) :
    Prop where
  holds : next.1.Holds q'
  socks : wk.socks q = next.1.socks q' + ↑next.2
  producer : next.1.ring.producer = wk.ring.producer
  stays : wk.pc = .exited → next.1.pc = .exited ∧ q' = q
  leaves : next.1.pc = .exited → wk.pc = .exited ∨ q' = []

section
variable {wk : Worker σ} {q : List σ}

theorem Worker.Holds.removed (h : wk.Holds q) {i : Nat} {c : Client σ}
    (hc : wk.clients[i]? = some c) :
    wk.Goes q ({ wk with clients := swapRemove wk.clients i }, [c.sock]) q where
  holds := ⟨h.ring, h.runs, fun he => by
    rw [h.drained he] at hc
    cases hc⟩
  socks := by
    have hperm := (swapRemove_perm hc).map Client.sock
    rw [Worker.socks, Worker.socks, ← Multiset.coe_eq_coe.mpr hperm, List.map_cons,
      ← Multiset.cons_coe, ← Multiset.singleton_add]
    simp only [Multiset.coe_singleton]
    abel
  producer := rfl
  stays := fun he => ⟨he, rfl⟩
  leaves := .inl

theorem Client.serve_sock {c c' : Client σ} {stop : Bool} {r : Recv}
    (h : c.serve stop r = some c') : c'.sock = c.sock := by
  rw [Client.serve.eq_def] at h
  cases r with
  | quiet | wouldBlock =>
    dsimp only at h
    split_ifs at h
    rw [Option.some.inj h]
  | closed | error => cases h
  | data received parsed keepAlive =>
    dsimp only at h
    split_ifs at h
    rw [← Option.some.inj h]

theorem map_sock_set {l : List (Client σ)} {i : Nat} {c c' : Client σ} (hc : l[i]? = some c)
    (hsock : c'.sock = c.sock) : (l.set i c').map Client.sock = l.map Client.sock := by
  obtain ⟨hi, rfl⟩ := List.getElem?_eq_some_iff.mp hc
  rw [List.map_set, hsock, ← List.getElem_map Client.sock, List.set_getElem_self]
  rwa [List.length_map]

/-- A worker that is past its exit test goes on with its ring and its clients. -/
theorem Worker.goes_on {next : Worker σ} (hpc : wk.pc ≠ .exited) (hring : next.ring.Holds q)
    (hprod : next.ring.producer = wk.ring.producer)
    (hclients : next.clients.map Client.sock = wk.clients.map Client.sock)
    (hruns : next.pc.Runs next.ring.consumer) (hin : next.pc ≠ .testQueue)
    (hout : next.pc ≠ .exited) : ∃ q', wk.Goes q (next, []) q' :=
  ⟨q, {
    holds := ⟨hring, hruns, fun he => (he.elim hin hout).elim⟩
    socks := by simp [Worker.socks, hclients]
    producer := hprod
    stays := fun he => absurd he hpc
    leaves := fun he => absurd he hout }⟩

/-- A worker that asks whether its ring is empty leaves when it is. -/
theorem Worker.Holds.testQueue_spec (h : wk.Holds q) (hpc : wk.pc = .testQueue) (stop : Bool)
    (a : Answers σ) : ∃ q', wk.Goes q (wk.turn stop a) q' := by
  have hruns := h.runs
  rw [Worker.turn, hpc]
  rw [hpc] at hruns
  have hclients := h.drained (.inl hpc)
  obtain ⟨q', hring, hends⟩ := consume_spec h.ring
  have hprod := consume_producer (r := wk.ring)
  have hop := consume_inEmpty hruns
  rcases hres : wk.ring.consume with ⟨ring, e⟩
  rw [hres] at hring hends hprod hop
  obtain ⟨rfl, hop⟩ | ⟨b, rfl, hop⟩ := hop
  · obtain ⟨-, rfl⟩ | ⟨e, he, -⟩ := hends
    · exact ⟨q', ⟨hring, hop, fun _ => hclients⟩, by simp [Worker.socks], hprod, by simp [hpc],
        by simp⟩
    · cases he
  · obtain ⟨he, -⟩ | ⟨e, he, hstep⟩ := hends
    · cases he
    · obtain rfl := Option.some.inj he
      cases hstep with
      | isEmpty =>
        cases hempty : q.isEmpty with
        | true =>
          exact ⟨q, ⟨hring, hop, fun _ => hclients⟩, by simp [Worker.socks], hprod,
            by simp [hpc], fun _ => .inr (List.isEmpty_iff.mp hempty)⟩
        | false =>
          exact Worker.goes_on (by simp [hpc]) hring hprod rfl hop (by simp) (by simp)

/-- A worker that takes a socket out of its ring keeps it as a client or closes it. -/
theorem Worker.Holds.adopt_spec (h : wk.Holds q) (hpc : wk.pc = .adopt) (stop : Bool)
    (a : Answers σ) : ∃ q', wk.Goes q (wk.turn stop a) q' := by
  have hruns := h.runs
  rw [Worker.turn, hpc]
  rw [hpc] at hruns
  obtain ⟨q', hring, hends⟩ := consume_spec h.ring
  have hprod := consume_producer (r := wk.ring)
  have hop := consume_inPop hruns
  rcases hres : wk.ring.consume with ⟨ring, e⟩
  rw [hres] at hring hends hprod hop
  obtain ⟨rfl, hop⟩ | ⟨rfl, hop⟩ | ⟨s, rfl, hop⟩ := hop
  · obtain ⟨-, rfl⟩ | ⟨e, he, -⟩ := hends
    · exact Worker.goes_on (by simp [hpc]) hring hprod rfl hop (by simp) (by simp)
    · cases he
  · obtain ⟨he, -⟩ | ⟨e, he, hstep⟩ := hends
    · cases he
    · obtain rfl := Option.some.inj he
      cases hstep with
      | nothing =>
        exact Worker.goes_on (by simp [hpc]) hring hprod rfl hop (by simp) (by simp)
  · obtain ⟨he, -⟩ | ⟨e, he, hstep⟩ := hends
    · cases he
    · obtain rfl := Option.some.inj he
      cases hstep with
      | popped =>
        dsimp only at hop hring hprod ⊢
        rw [pop_idle hop]
        split_ifs with hroom
        · refine ⟨q', ⟨hring.withConsumer trivial, rfl, by simp⟩, ?_, hprod, by simp [hpc], by simp⟩
          rw [Worker.socks, Worker.socks, List.map_append, ← Multiset.coe_add, ← Multiset.cons_coe]
          simp only [List.map_cons, List.map_nil, Multiset.coe_singleton, Multiset.coe_nil,
            ← Multiset.singleton_add]
          abel
        · refine ⟨q', ⟨hring.withConsumer trivial, rfl, by simp⟩, ?_, hprod, by simp [hpc], by simp⟩
          rw [Worker.socks, Worker.socks, ← Multiset.cons_coe]
          simp only [Multiset.coe_singleton, ← Multiset.singleton_add]
          abel

theorem Worker.turn_spec (h : wk.Holds q) (stop : Bool) (a : Answers σ) :
    ∃ q', wk.Goes q (wk.turn stop a) q' := by
  have hruns := h.runs
  cases hpc : wk.pc with
  | test =>
    rw [hpc] at hruns
    rw [Worker.turn, hpc]
    dsimp only
    split_ifs with hmore
    · exact Worker.goes_on (by simp [hpc]) h.ring rfl rfl hruns (by simp) (by simp)
    · have hnone : wk.clients = [] := by
        by_contra hne
        exact hmore (by simp [List.length_pos_iff.mpr hne])
      rw [empty_idle hruns]
      exact ⟨q, ⟨h.ring.withConsumer trivial, rfl, fun _ => hnone⟩, by simp [Worker.socks], rfl,
        by simp [hpc], by simp⟩
  | testQueue => exact h.testQueue_spec hpc stop a
  | select =>
    rw [hpc] at hruns
    rw [Worker.turn, hpc]
    dsimp only
    split_ifs with hfail hbad
    · exact Worker.goes_on (by simp [hpc]) h.ring rfl rfl hruns (by simp) (by simp)
    · exact Worker.goes_on (by simp [hpc]) h.ring rfl rfl hruns (by simp) (by simp)
    · rw [pop_idle hruns]
      exact Worker.goes_on (by simp [hpc]) (h.ring.withConsumer trivial) rfl rfl rfl (by simp)
        (by simp)
  | reap i =>
    rw [hpc] at hruns
    rw [Worker.turn, hpc]
    dsimp only
    cases hc : wk.clients[i]? with
    | none => exact Worker.goes_on (by simp [hpc]) h.ring rfl rfl hruns (by simp) (by simp)
    | some c =>
      dsimp only
      split_ifs with hbad
      · rw [← hpc]
        exact ⟨q, h.removed hc⟩
      · exact Worker.goes_on (by simp [hpc]) h.ring rfl rfl hruns (by simp) (by simp)
  | adopt => exact h.adopt_spec hpc stop a
  | serve i =>
    rw [hpc] at hruns
    rw [Worker.turn, hpc]
    dsimp only
    cases hc : wk.clients[i]? with
    | none => exact Worker.goes_on (by simp [hpc]) h.ring rfl rfl hruns (by simp) (by simp)
    | some c =>
      dsimp only
      cases hserve : c.serve stop a.recv with
      | none =>
        rw [← hpc]
        exact ⟨q, h.removed hc⟩
      | some c' =>
        have hsocks := map_sock_set hc (Client.serve_sock hserve)
        exact Worker.goes_on (by simp [hpc]) h.ring rfl hsocks hruns (by simp) (by simp)
  | exited =>
    rw [Worker.turn, hpc]
    exact ⟨q, h, by simp, rfl, fun _ => ⟨hpc, rfl⟩, fun _ => .inl hpc⟩

/-- Another ring with the same consumer. -/
theorem Worker.Holds.withRing (h : wk.Holds q) {ring : Ring σ} {q' : List σ} (hring : ring.Holds q')
    (hc : ring.consumer = wk.ring.consumer) : Worker.Holds { wk with ring } q' :=
  ⟨hring, by rw [hc]; exact h.runs, h.drained⟩

end

/-! ## The server -/

namespace Server

variable {m : Nat}

/-- The socket that the acceptor has accepted and not yet passed on. -/
def hand (sv : Server σ m) : Multiset σ :=
  match sv.acceptor with
  | .dispatch s _ | .pushing s _ => {s}
  | _ => 0

/-- The socket that the acceptor is pushing to a worker. -/
def pushingTo (sv : Server σ m) (w : Fin (m + 1)) : Option σ :=
  match sv.acceptor with
  | .pushing s k => if w = sv.target k then some s else none
  | _ => none

/-- The sockets that the workers have when their rings hold `q`. -/
def socks (sv : Server σ m) (q : Fin (m + 1) → List σ) : Multiset σ :=
  ∑ w, (sv.workers w).socks (q w)

/-- Every accepted socket is in one place; the rings hold `q`. -/
structure Inv (sv : Server σ m) (q : Fin (m + 1) → List σ) : Prop where
  workers : ∀ w, (sv.workers w).Holds (q w)
  producers : ∀ w, (sv.workers w).ring.producer.item = sv.pushingTo w
  accounts : (sv.accepted : Multiset σ) =
    sv.hand + sv.socks q + ((sv.closed.map Prod.snd : List σ) : Multiset σ)

/-- A push stores its socket into the ring of a worker that has left its loop. -/
def latePush (sv : Server σ m) : Turn σ m → Bool
  | .acceptor _ =>
    match sv.acceptor with
    | .pushing _ k =>
      (sv.workers (sv.target k)).pc == .exited &&
        (sv.workers (sv.target k)).ring.producer.stores
    | _ => false
  | _ => false

/-- No push of the run is late. -/
def Timely (sv : Server σ m) : List (Turn σ m) → Prop
  | [] => True
  | t :: turns => sv.latePush t = false ∧ (sv.turn t).Timely turns

/-- What a turn does when the rings hold `q` before it and `q'` after it. -/
structure Goes (sv : Server σ m) (t : Turn σ m) (q q' : Fin (m + 1) → List σ) : Prop where
  inv : (sv.turn t).Inv q'
  stays : ∀ w, (sv.workers w).pc = .exited →
    ((sv.turn t).workers w).pc = .exited ∧ q w <+: q' w
  leaves : sv.latePush t = false → ∀ w, ((sv.turn t).workers w).pc = .exited →
    q' w = [] ∨ (sv.workers w).pc = .exited ∧ q' w = q w
  late : sv.latePush t = true → ∃ w, ((sv.turn t).workers w).pc = .exited ∧ q' w ≠ []

section
variable {sv : Server σ m} {q : Fin (m + 1) → List σ}

theorem init_inv (slots : Fin (m + 1) → Nat → σ) : (init slots).Inv fun _ => [] where
  workers w := ⟨Ring.init_holds (slots w), rfl, fun _ => rfl⟩
  producers w := rfl
  accounts := by simp [init, hand, socks, Worker.socks]

variable (sv q) in
/-- Only one worker changes. -/
theorem socks_update (w : Fin (m + 1)) (wk : Worker σ) (qw : List σ) :
    ∑ v, (Function.update sv.workers w wk v).socks (Function.update q w qw v) +
      (sv.workers w).socks (q w) = wk.socks qw + sv.socks q := by
  have hrest : ∑ v ∈ Finset.univ.erase w,
        (Function.update sv.workers w wk v).socks (Function.update q w qw v) =
      ∑ v ∈ Finset.univ.erase w, (sv.workers v).socks (q v) :=
    Finset.sum_congr rfl fun v hv => by
      rw [Function.update_of_ne (Finset.ne_of_mem_erase hv),
        Function.update_of_ne (Finset.ne_of_mem_erase hv)]
  rw [socks, ← Finset.add_sum_erase _ _ (Finset.mem_univ w),
    ← Finset.add_sum_erase _ (fun v => (sv.workers v).socks (q v)) (Finset.mem_univ w), hrest,
    Function.update_self, Function.update_self]
  abel

theorem turn_worker_self (w : Fin (m + 1)) (a : Answers σ) :
    (sv.turn (.worker w a)).workers w = ((sv.workers w).turn sv.stop a).1 :=
  Function.update_self ..

theorem turn_worker_ne {v w : Fin (m + 1)} (hv : v ≠ w) (a : Answers σ) :
    (sv.turn (.worker w a)).workers v = sv.workers v :=
  Function.update_of_ne hv ..

theorem worker_goes (h : sv.Inv q) (w : Fin (m + 1)) (a : Answers σ) :
    ∃ q', sv.Goes (.worker w a) q q' := by
  obtain ⟨qw, hgo⟩ := Worker.turn_spec (h.workers w) sv.stop a
  refine ⟨Function.update q w qw, ⟨?_, ?_, ?_⟩, ?_, ?_, by simp [latePush]⟩
  · intro v
    obtain rfl | hv := eq_or_ne v w
    · rw [turn_worker_self, Function.update_self]
      exact hgo.holds
    · rw [turn_worker_ne hv, Function.update_of_ne hv]
      exact h.workers v
  · intro v
    have hpush : (sv.turn (.worker w a)).pushingTo v = sv.pushingTo v := rfl
    rw [hpush, ← h.producers]
    obtain rfl | hv := eq_or_ne v w
    · rw [turn_worker_self, hgo.producer]
    · rw [turn_worker_ne hv]
  · have hsum := socks_update sv q w ((sv.workers w).turn sv.stop a).1 qw
    have hclosed : (sv.turn (.worker w a)).closed.map Prod.snd =
        sv.closed.map Prod.snd ++ ((sv.workers w).turn sv.stop a).2 := by
      simp [turn, Function.comp_def]
    have hsocks : sv.socks q =
        (sv.turn (.worker w a)).socks (Function.update q w qw) +
          ↑((sv.workers w).turn sv.stop a).2 := by
      rw [hgo.socks] at hsum
      apply add_left_cancel (a := ((sv.workers w).turn sv.stop a).1.socks qw)
      rw [← hsum, socks, turn]
      abel
    have hacc := h.accounts
    rw [hsocks] at hacc
    rw [hclosed, ← Multiset.coe_add]
    apply hacc.trans
    show sv.hand + _ + _ = sv.hand + _ + _
    abel
  · intro v he
    obtain rfl | hv := eq_or_ne v w
    · obtain ⟨hexit, rfl⟩ := hgo.stays he
      rw [turn_worker_self, Function.update_self]
      exact ⟨hexit, List.prefix_rfl⟩
    · rw [turn_worker_ne hv, Function.update_of_ne hv]
      exact ⟨he, List.prefix_rfl⟩
  · intro _ v he
    obtain rfl | hv := eq_or_ne v w
    · rw [turn_worker_self] at he
      obtain hbefore | hnil := hgo.leaves he
      · obtain ⟨-, rfl⟩ := hgo.stays hbefore
        exact .inr ⟨hbefore, by rw [Function.update_self]⟩
      · exact .inl (by rw [Function.update_self, hnil])
    · rw [turn_worker_ne hv] at he
      exact .inr ⟨he, by rw [Function.update_of_ne hv]⟩

theorem withRing_self (w : Fin (m + 1)) (ring : Ring σ) :
    (sv.withRing w ring).workers w = { sv.workers w with ring } :=
  Function.update_self ..

theorem withRing_ne {v w : Fin (m + 1)} (hv : v ≠ w) (ring : Ring σ) :
    (sv.withRing w ring).workers v = sv.workers v :=
  Function.update_of_ne hv ..

/-- The acceptor changes the ring of one worker. -/
theorem withRing_holds (h : sv.Inv q) (w : Fin (m + 1)) {ring : Ring σ} {qw : List σ}
    (hring : ring.Holds qw) (hconsumer : ring.consumer = (sv.workers w).ring.consumer)
    (v : Fin (m + 1)) : ((sv.withRing w ring).workers v).Holds (Function.update q w qw v) := by
  obtain rfl | hv := eq_or_ne v w
  · rw [withRing_self, Function.update_self]
    exact (h.workers v).withRing hring hconsumer
  · rw [withRing_ne hv, Function.update_of_ne hv]
    exact h.workers v

theorem withRing_pc (w v : Fin (m + 1)) (ring : Ring σ) :
    ((sv.withRing w ring).workers v).pc = (sv.workers v).pc := by
  obtain rfl | hv := eq_or_ne v w
  · rw [withRing_self]
  · rw [withRing_ne hv]

variable (sv q) in
theorem withRing_socks (w : Fin (m + 1)) (ring : Ring σ) (qw : List σ) :
    (sv.withRing w ring).socks (Function.update q w qw) + ↑(q w) = ↑qw + sv.socks q := by
  have hsum := socks_update sv q w { sv.workers w with ring } qw
  apply add_right_cancel (b := (↑((sv.workers w).clients.map Client.sock) : Multiset σ))
  calc _ = (sv.withRing w ring).socks (Function.update q w qw) + (sv.workers w).socks (q w) := by
        rw [add_assoc, Worker.socks]
    _ = _ := by
        rw [socks, withRing, hsum, Worker.socks]
        abel

/-- The acceptor changes no ring. -/
theorem Inv.same (h : sv.Inv q) {sv' : Server σ m} (hworkers : sv'.workers = sv.workers)
    (hpush : ∀ w, sv'.pushingTo w = sv.pushingTo w)
    (haccounts : (sv'.accepted : Multiset σ) + sv.hand + ↑(sv.closed.map Prod.snd) =
      sv.accepted + sv'.hand + ↑(sv'.closed.map Prod.snd)) : sv'.Inv q where
  workers w := by rw [hworkers]; exact h.workers w
  producers w := by rw [hworkers, hpush]; exact h.producers w
  accounts := by
    apply add_right_cancel (b := sv.hand + (↑(sv.closed.map Prod.snd) : Multiset σ))
    rw [← add_assoc, haccounts, h.accounts, socks, socks, hworkers]
    abel

theorem Goes.same {t : Turn σ m} (hinv : (sv.turn t).Inv q)
    (hworkers : (sv.turn t).workers = sv.workers) (hlate : sv.latePush t = false) :
    sv.Goes t q q where
  inv := hinv
  stays w he := by rw [hworkers]; exact ⟨he, List.prefix_rfl⟩
  leaves _ w he := by rw [hworkers] at he; exact .inr ⟨he, rfl⟩
  late hl := by rw [hlate] at hl; cases hl

/-- The acceptor changes the ring of one worker, and its sockets move between its hand and the
ring. -/
theorem Inv.ring (h : sv.Inv q) {sv' : Server σ m} {w : Fin (m + 1)} {ring : Ring σ} {qw : List σ}
    (hworkers : sv'.workers = (sv.withRing w ring).workers) (hring : ring.Holds qw)
    (hconsumer : ring.consumer = (sv.workers w).ring.consumer)
    (hself : ring.producer.item = sv'.pushingTo w)
    (hothers : ∀ v, v ≠ w → sv'.pushingTo v = sv.pushingTo v)
    (haccepted : sv'.accepted = sv.accepted) (hclosed : sv'.closed = sv.closed)
    (hhand : sv'.hand + ↑qw = sv.hand + ↑(q w)) : sv'.Inv (Function.update q w qw) where
  workers v := by rw [hworkers]; exact withRing_holds h w hring hconsumer v
  producers v := by
    rw [hworkers]
    obtain rfl | hv := eq_or_ne v w
    · rw [← hself, withRing_self]
    · rw [hothers v hv, ← h.producers v, withRing_ne hv]
  accounts := by
    have hsocks := withRing_socks sv q w ring qw
    rw [socks, ← hworkers, ← socks] at hsocks
    apply add_right_cancel (b := (↑(q w) : Multiset σ))
    calc (sv'.accepted : Multiset σ) + ↑(q w)
        = sv.hand + ↑(q w) + sv.socks q + ↑(sv.closed.map Prod.snd) := by
          rw [haccepted, h.accounts]
          abel
      _ = sv'.hand + (↑qw + sv.socks q) + ↑(sv.closed.map Prod.snd) := by
          rw [← hhand]
          abel
      _ = _ := by
          rw [← hsocks, hclosed]
          abel

theorem Goes.ring {t : Turn σ m} {w : Fin (m + 1)} {ring : Ring σ} {qw : List σ}
    (hinv : (sv.turn t).Inv (Function.update q w qw))
    (hworkers : (sv.turn t).workers = (sv.withRing w ring).workers) (hgrow : q w <+: qw)
    (hkeep : sv.latePush t = false → (sv.workers w).pc = .exited → qw = q w)
    (hlate : sv.latePush t = true → (sv.workers w).pc = .exited ∧ qw ≠ []) :
    sv.Goes t q (Function.update q w qw) where
  inv := hinv
  stays v he := by
    rw [hworkers, withRing_pc]
    obtain rfl | hv := eq_or_ne v w
    · exact ⟨he, by rwa [Function.update_self]⟩
    · exact ⟨he, by rw [Function.update_of_ne hv]⟩
  leaves hl v he := by
    rw [hworkers, withRing_pc] at he
    obtain rfl | hv := eq_or_ne v w
    · exact .inr ⟨he, by rw [Function.update_self, hkeep hl he]⟩
    · exact .inr ⟨he, by rw [Function.update_of_ne hv]⟩
  late hl := by
    obtain ⟨he, hne⟩ := hlate hl
    exact ⟨w, by rw [hworkers, withRing_pc, he], by rwa [Function.update_self]⟩

theorem dispatch_goes (h : sv.Inv q) (a : Answers σ) {s : σ} {k : Nat}
    (hacc : sv.acceptor = .dispatch s k) : ∃ q', sv.Goes (.acceptor a) q q' := by
  have hlate : sv.latePush (.acceptor a) = false := by simp [latePush, hacc]
  by_cases hk : k < m + 1
  · have hturn : sv.turn (.acceptor a) =
        { sv.withRing (sv.target k) ((sv.workers (sv.target k)).ring.push s) with
          acceptor := .pushing s k } := by
      simp [turn, acceptorTurn, hacc, hk]
    have hidle : (sv.workers (sv.target k)).ring.producer = .idle := by
      have := h.producers (sv.target k)
      rw [pushingTo, hacc] at this
      cases hp : (sv.workers (sv.target k)).ring.producer with
      | idle => rfl
      | _ => rw [hp] at this; cases this
    have hworkers : (sv.turn (.acceptor a)).workers =
        (sv.withRing (sv.target k) ((sv.workers (sv.target k)).ring.push s)).workers := by
      rw [hturn]
    have hring := (call_spec (h.workers (sv.target k)).ring).1 s
    refine ⟨_, .ring (h.ring hworkers hring ?_ ?_ ?_ ?_ ?_ ?_) hworkers List.prefix_rfl
      (fun _ _ => rfl) fun hl => by rw [hlate] at hl; cases hl⟩
    · rw [push_idle hidle]
    · rw [push_idle hidle, hturn]
      exact (if_pos rfl).symm
    · intro v hv
      rw [hturn, pushingTo, pushingTo, hacc]
      exact if_neg hv
    · rw [hturn]
      rfl
    · rw [hturn]
      rfl
    · rw [hturn, hand, hand, hacc]
  · have hturn : sv.turn (.acceptor a) =
        { sv with acceptor := .accept, rr := (sv.rr + 1) % (m + 1),
                  closed := sv.closed ++ [(.acceptor, s)] } := by
      simp [turn, acceptorTurn, hacc, hk]
    refine ⟨q, .same (h.same ?_ ?_ ?_) ?_ hlate⟩
    · rw [hturn]
    · intro w
      rw [hturn, pushingTo, pushingTo, hacc]
    · rw [hturn, hand, hand, hacc]
      simp only [List.map_append, List.map_cons, List.map_nil, ← Multiset.coe_add,
        Multiset.coe_singleton]
      abel
    · rw [hturn]

theorem pushing_goes (h : sv.Inv q) (a : Answers σ) {s : σ} {k : Nat}
    (hacc : sv.acceptor = .pushing s k) : ∃ q', sv.Goes (.acceptor a) q q' := by
  have hring := (h.workers (sv.target k)).ring
  have hself : sv.pushingTo (sv.target k) = some s := by
    rw [pushingTo, hacc]
    exact if_pos rfl
  have hitem := (h.producers (sv.target k)).trans hself
  have hlate : sv.latePush (.acceptor a) = ((sv.workers (sv.target k)).pc == .exited &&
      (sv.workers (sv.target k)).ring.producer.stores) := by
    simp only [latePush, hacc]
  have hothers : ∀ v, v ≠ sv.target k → sv.pushingTo v = none := fun v hv => by
    rw [pushingTo, hacc]
    exact if_neg hv
  have hhand : sv.hand = {s} := by rw [hand, hacc]
  obtain ⟨qw, hring', hends⟩ := produce_spec hring
  have hcons := produce_consumer (r := (sv.workers (sv.target k)).ring)
  have hnext := produce_item hitem
  rcases hres : (sv.workers (sv.target k)).ring.produce with ⟨ring, e⟩
  rw [hres] at hring' hends hcons hnext
  obtain ⟨rfl, hitem', hstores⟩ | ⟨rfl, hitem', hstores⟩ | ⟨rfl, hitem', hstores⟩ := hnext
  · have hturn : sv.turn (.acceptor a) = sv.withRing (sv.target k) ring := by
      simp only [turn, acceptorTurn, hacc, hres]
    obtain rfl : qw = q (sv.target k) := by
      obtain ⟨-, hq⟩ | ⟨e, he, -⟩ := hends
      · exact hq
      · cases he
    refine ⟨_, .ring (h.ring (congrArg workers hturn) hring' hcons ?_ ?_ ?_ ?_ ?_)
      (congrArg workers hturn) List.prefix_rfl (fun _ _ => rfl) fun hl => ?_⟩
    · rw [hitem', hturn]
      exact hself.symm
    · intro v hv
      rw [hturn]
      rfl
    · rw [hturn]
      rfl
    · rw [hturn]
      rfl
    · rw [hturn]
      rfl
    · rw [hlate, hstores, Bool.and_false] at hl
      cases hl
  · have hturn : sv.turn (.acceptor a) =
        { sv.withRing (sv.target k) ring with acceptor := .dispatch s (k + 1) } := by
      simp only [turn, acceptorTurn, hacc, hres]
    have hworkers : (sv.turn (.acceptor a)).workers = (sv.withRing (sv.target k) ring).workers := by
      rw [hturn]
    obtain rfl : qw = q (sv.target k) := by
      obtain ⟨he, -⟩ | ⟨e, he, hs⟩ := hends
      · cases he
      · obtain rfl := Option.some.inj he
        exact hs.full_eq
    refine ⟨_, .ring (h.ring hworkers hring' hcons ?_ ?_ ?_ ?_ ?_) hworkers List.prefix_rfl
      (fun _ _ => rfl) fun hl => ?_⟩
    · rw [hturn, hitem', pushingTo]
    · intro v hv
      rw [hothers v hv, hturn, pushingTo]
    · rw [hturn]
      rfl
    · rw [hturn]
      rfl
    · rw [hhand, hturn, hand]
    · rw [hlate, hstores, Bool.and_false] at hl
      cases hl
  · have hturn : sv.turn (.acceptor a) =
        { sv.withRing (sv.target k) ring with
          acceptor := .accept, rr := ((sv.target k).val + 1) % (m + 1) } := by
      simp only [turn, acceptorTurn, hacc, hres]
    have hworkers : (sv.turn (.acceptor a)).workers = (sv.withRing (sv.target k) ring).workers := by
      rw [hturn]
    obtain rfl : qw = q (sv.target k) ++ [s] := by
      obtain ⟨he, -⟩ | ⟨e, he, hs⟩ := hends
      · cases he
      · obtain rfl := Option.some.inj he
        exact hs.pushed_eq
    refine ⟨_, .ring (h.ring hworkers hring' hcons ?_ ?_ ?_ ?_ ?_) hworkers
      (List.prefix_append _ _) (fun hl he => ?_) fun hl => ⟨?_, by simp⟩⟩
    · rw [hturn, hitem', pushingTo]
    · intro v hv
      rw [hothers v hv, hturn, pushingTo]
    · rw [hturn]
      rfl
    · rw [hturn]
      rfl
    · rw [hhand, hturn, hand, ← Multiset.coe_add, Multiset.coe_singleton]
      abel
    · rw [hlate, hstores, he] at hl
      cases hl
    · rw [hlate, hstores, Bool.and_true] at hl
      exact eq_of_beq hl

theorem acceptor_goes (h : sv.Inv q) (a : Answers σ) : ∃ q', sv.Goes (.acceptor a) q q' := by
  cases hacc : sv.acceptor with
  | dispatch s k => exact dispatch_goes h a hacc
  | pushing s k => exact pushing_goes h a hacc
  | test =>
    refine ⟨q, .same (h.same ?_ ?_ ?_) ?_ ?_⟩ <;>
      simp only [turn, acceptorTurn, hacc, pushingTo, hand, latePush] <;> split_ifs <;> simp
  | select =>
    refine ⟨q, .same (h.same ?_ ?_ ?_) ?_ ?_⟩ <;>
      simp only [turn, acceptorTurn, hacc, pushingTo, hand, latePush] <;> split_ifs <;> simp
  | accept =>
    cases hs : a.accepted with
    | none =>
      refine ⟨q, .same (h.same ?_ ?_ ?_) ?_ ?_⟩ <;>
        simp [turn, acceptorTurn, hacc, hs, pushingTo, hand, latePush]
    | some s =>
      have hturn : sv.turn (.acceptor a) =
          { sv with acceptor := .dispatch s 0, accepted := sv.accepted ++ [s] } := by
        simp only [turn, acceptorTurn, hacc, hs]
      refine ⟨q, .same (h.same ?_ ?_ ?_) ?_ (by simp [latePush, hacc])⟩
      · rw [hturn]
      · intro w
        rw [hturn, pushingTo, pushingTo, hacc]
      · rw [hturn, hand, hand, hacc]
        simp only [← Multiset.coe_add, Multiset.coe_singleton]
        abel
      · rw [hturn]
  | exited =>
    refine ⟨q, .same (h.same ?_ ?_ ?_) ?_ ?_⟩ <;>
      simp [turn, acceptorTurn, hacc, pushingTo, hand, latePush]

theorem turn_goes (h : sv.Inv q) (t : Turn σ m) : ∃ q', sv.Goes t q q' := by
  cases t with
  | requestStop =>
    exact ⟨q, .same (h.same rfl (fun _ => rfl) rfl) rfl rfl⟩
  | acceptor a => exact acceptor_goes h a
  | worker w a => exact worker_goes h w a

/-! ## Runs -/

/-- No worker that has left its loop has a socket in its ring. -/
def Clear (sv : Server σ m) (q : Fin (m + 1) → List σ) : Prop :=
  ∀ w, (sv.workers w).pc = .exited → q w = []

/-- **What a run does**: without a late push no ring is left behind, and after one a ring is. -/
theorem run_spec (h : sv.Inv q) (turns : List (Turn σ m)) :
    ∃ q', (sv.run turns).Inv q' ∧
      (sv.Clear q → sv.Timely turns → (sv.run turns).Clear q') ∧
      (¬ (sv.Clear q ∧ sv.Timely turns) → ¬ (sv.run turns).Clear q') := by
  induction turns generalizing sv q with
  | nil => exact ⟨q, h, fun hc _ => hc, fun hn hc => hn ⟨hc, trivial⟩⟩
  | cons t turns ih =>
    obtain ⟨q₁, hgo⟩ := turn_goes h t
    obtain ⟨q', hinv, hclear, hlost⟩ := ih hgo.inv
    refine ⟨q', hinv, fun hc ht => hclear (fun w he => ?_) ht.2, fun hn => hlost fun hcl => hn ?_⟩
    · obtain hnil | ⟨hbefore, hsame⟩ := hgo.leaves ht.1 w he
      · exact hnil
      · rw [hsame, hc w hbefore]
    · have hbefore : sv.Clear q := fun w he => by
        obtain ⟨he', hgrow⟩ := hgo.stays w he
        rw [hcl.1 w he'] at hgrow
        exact List.prefix_nil.mp hgrow
      refine ⟨hbefore, ?_, hcl.2⟩
      by_contra hlate
      obtain ⟨w, he, hne⟩ := hgo.late (by simpa using hlate)
      exact hne (hcl.1 w he)

/-- The acceptor and all workers have left their loops. -/
def Exited (sv : Server σ m) : Prop :=
  sv.acceptor = .exited ∧ ∀ w, (sv.workers w).pc = .exited

/-- Every accepted socket was closed, by the acceptor or by a worker that took it from its ring, and
no ring holds one. -/
def Settled (sv : Server σ m) : Prop :=
  (sv.closed.map Prod.snd).Perm sv.accepted ∧
    ∀ w, (sv.workers w).ring.q.head = (sv.workers w).ring.q.tail

theorem settled_iff_clear (h : sv.Inv q) (hexit : sv.Exited) : sv.Settled ↔ sv.Clear q := by
  have hempty : ∀ w, (sv.workers w).ring.q.head = (sv.workers w).ring.q.tail ↔ q w = [] :=
    fun w => head_eq_tail_iff (h.workers w).ring
  refine ⟨fun hs w _ => (hempty w).mp (hs.2 w), fun hc => ⟨?_,
    fun w => (hempty w).mpr (hc w (hexit.2 w))⟩⟩
  have hsocks : sv.socks q = 0 := Finset.sum_eq_zero fun w _ => by
    rw [Worker.socks, hc w (hexit.2 w), (h.workers w).drained (.inr (hexit.2 w))]
    rfl
  have hacc := h.accounts
  rw [hsocks, hand, hexit.1, zero_add, zero_add] at hacc
  exact (Multiset.coe_eq_coe.mp hacc).symm

/-- **Shutdown leaves no accepted socket behind** exactly when no push stores its socket into the ring
of a worker that has left its loop. -/
theorem shutdown_settled_iff (slots : Fin (m + 1) → Nat → σ) (turns : List (Turn σ m))
    (hexit : ((init slots).run turns).Exited) :
    ((init slots).run turns).Settled ↔ (init slots).Timely turns := by
  obtain ⟨q, hinv, hclear, hlost⟩ := run_spec (init_inv slots) turns
  have hstart : (init slots).Clear fun _ => [] := fun _ _ => rfl
  rw [settled_iff_clear hinv hexit]
  refine ⟨fun hc => ?_, hclear hstart⟩
  by_contra hlate
  exact hlost (fun h => hlate h.2) hc

end

/-! ## Two orders of the same turns -/

/-- The calls answer with a connection, if with one, and with nothing to read. -/
def calls (accepted : Option Nat) : Answers Nat :=
  { ready := true, accepted, selectFailed := false, badDescriptor := false, bad := false,
    recv := .quiet }

def acceptorTurns (n : Nat) (accepted : Option Nat) : List (Turn Nat 0) :=
  List.replicate n (.acceptor (calls accepted))

def workerTurns (n : Nat) : List (Turn Nat 0) := List.replicate n (.worker 0 (calls none))

/-- Socket 7 is accepted, the stop is requested, the worker leaves, and then the socket is pushed. -/
def lateOrder : List (Turn Nat 0) :=
  acceptorTurns 3 (some 7) ++ .requestStop :: (workerTurns 3 ++ acceptorTurns 7 none)

/-- The worker leaves after the push. -/
def timelyOrder : List (Turn Nat 0) :=
  acceptorTurns 3 (some 7) ++ .requestStop :: (acceptorTurns 7 none ++ workerTurns 15)

theorem timelyOrder_exits : ((init fun _ _ => 0).run timelyOrder).Exited := by
  unfold Exited
  decide +kernel

theorem timelyOrder_settled : ((init fun _ _ => 0).run timelyOrder).Exited ∧
    (((init fun _ _ => 0).run timelyOrder).Settled ↔
      (init fun _ _ => 0).Timely timelyOrder) :=
  ⟨timelyOrder_exits, shutdown_settled_iff (fun _ _ => 0) timelyOrder timelyOrder_exits⟩

/-- Pushed after the worker has left, socket 7 stays in its ring. -/
theorem lateOrder_left : ¬ ∀ (m : Nat) (slots : Fin (m + 1) → Nat → Nat) (turns : List (Turn Nat m)),
    ((init slots).run turns).Exited → ((init slots).run turns).Settled := by
  intro h
  have hexit : ((init fun _ _ => 0).run lateOrder).Exited := by
    unfold Exited
    decide +kernel
  have hleft : (((init fun _ _ => 0).run lateOrder).workers 0).ring.q.head ≠
      (((init fun _ _ => 0).run lateOrder).workers 0).ring.q.tail := by
    decide +kernel
  have hsettled := h 0 (fun _ _ => 0) lateOrder hexit
  rw [Settled] at hsettled
  exact hleft (hsettled.2 0)

end Server

end

end Runtime
