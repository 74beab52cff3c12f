import Orbit.Runtime.Proof.Server
import Orbit.Runtime.Server

/-!
# Who owns the buffers of a worker

In every run of a worker each buffer and each peer string of its pools is owned by one client or is
free, and no access is outside an array (`pool_owned`). What the arrays hold is the list of the
clients of `Worker.turn`, so the worker with its pools does what that one does.
-/

namespace Runtime

open Lib.SlotPool (Owns)

section
variable {α σ : Type}

theorem store_eq {l : List α} {i : Nat} (h : i < l.length) (x : α) :
    store l i x = some (l.set i x) := if_pos h

theorem before_succ (count : Nat) : before (count + 1) = some count := rfl

/-- The clients in the arrays. -/
def WorkerPool.list (p : WorkerPool σ) : List (Client σ) :=
  (List.zipWith Client.mk p.clients p.buffered).take p.numClients

structure PoolOwned (p : WorkerPool σ) : Prop where
  buffers : Owns (List.range 512) p.buffers p.numClients p.freeBuffers p.freeBuffersCount
  peers : Owns (List.range 512) p.peers p.numClients p.freePeers p.freePeersCount
  clients : p.clients.length = 512
  buffered : p.buffered.length = 512

variable {p : WorkerPool σ}

theorem PoolOwned.counts (h : PoolOwned p) :
    p.numClients + p.freeBuffersCount = 512 ∧ p.numClients + p.freePeersCount = 512 := by
  have hbuffers := h.buffers.count
  have hpeers := h.peers.count
  rw [List.length_range] at hbuffers hpeers
  exact ⟨hbuffers, hpeers⟩

theorem PoolOwned.length (h : PoolOwned p) :
    (List.zipWith Client.mk p.clients p.buffered).length = 512 ∧ p.list.length = p.numClients := by
  have hzip : (List.zipWith Client.mk p.clients p.buffered).length = 512 := by
    rw [List.length_zipWith, h.clients, h.buffered, Nat.min_self]
  obtain ⟨hcount, -⟩ := h.counts
  refine ⟨hzip, ?_⟩
  rw [WorkerPool.list, List.length_take, hzip]
  omega

theorem zipWith_set (clients : List σ) (buffered : List Nat) (i : Nat) (s : σ) (n : Nat) :
    List.zipWith Client.mk (clients.set i s) (buffered.set i n) =
      (List.zipWith Client.mk clients buffered).set i ⟨s, n⟩ := by
  induction clients generalizing buffered i with
  | nil => rfl
  | cons c clients ih =>
    cases buffered with
    | nil => simp
    | cons b buffered =>
      cases i with
      | zero => rfl
      | succ i => simp only [List.set_cons_succ, List.zipWith_cons_cons, ih]

theorem PoolOwned.client_eq (h : PoolOwned p) {i : Nat} (hi : i < p.numClients) :
    ∃ c, p.client i = some c ∧ p.list[i]? = some c ∧ p.clients[i]? = some c.sock ∧
      p.buffered[i]? = some c.buffered := by
  obtain ⟨hcount, -⟩ := h.counts
  have hc : i < p.clients.length := by
    rw [h.clients]
    omega
  have hb : i < p.buffered.length := by
    rw [h.buffered]
    omega
  refine ⟨⟨p.clients[i], p.buffered[i]⟩, ?_, ?_, List.getElem?_eq_getElem hc,
    List.getElem?_eq_getElem hb⟩
  · rw [WorkerPool.client, List.getElem?_eq_getElem hc, List.getElem?_eq_getElem hb]
    rfl
  · rw [WorkerPool.list, List.getElem?_take_of_lt hi, List.getElem?_zipWith,
      List.getElem?_eq_getElem hc, List.getElem?_eq_getElem hb]

/-! ## What the operations do -/

theorem PoolOwned.adopt (h : PoolOwned p) (hroom : p.numClients < 512) (s : σ) :
    ∃ p', p.adopt s = some p' ∧ PoolOwned p' ∧ p'.list = p.list ++ [⟨s, 0⟩] := by
  obtain ⟨hcount, hcount'⟩ := h.counts
  have hbuffers := h.buffers
  have hpeers := h.peers
  obtain ⟨m, hm⟩ : ∃ m, p.freeBuffersCount = m + 1 := ⟨p.freeBuffersCount - 1, by omega⟩
  have hm' : p.freePeersCount = m + 1 := by omega
  rw [hm] at hbuffers
  rw [hm'] at hpeers
  obtain ⟨buffer, hbuffer, hb, hbuffers⟩ := hbuffers.acquire
  obtain ⟨peer, hpeer, hp, hpeers⟩ := hpeers.acquire
  refine ⟨{ p with
    clients := p.clients.set p.numClients s
    buffered := p.buffered.set p.numClients 0
    buffers := p.buffers.set p.numClients buffer
    peers := p.peers.set p.numClients peer
    numClients := p.numClients + 1
    freeBuffersCount := m
    freePeersCount := m }, ?_, ⟨hbuffers, hpeers, ?_, ?_⟩, ?_⟩
  · have hc : p.numClients < p.clients.length := h.clients.symm ▸ hroom
    have hn : p.numClients < p.buffered.length := h.buffered.symm ▸ hroom
    simp only [WorkerPool.adopt, store_eq hc, store_eq hn, store_eq hb, store_eq hp, hm, hm',
      before_succ, hbuffer, hpeer, Option.bind_eq_bind, Option.bind_some]
  · rw [List.length_set]
    exact h.clients
  · rw [List.length_set]
    exact h.buffered
  · rw [WorkerPool.list]
    dsimp only
    rw [zipWith_set, Lib.SlotPool.take_fill (h.length.1.symm ▸ hroom), ← WorkerPool.list]

theorem PoolOwned.drop (h : PoolOwned p) {i : Nat} (hi : i < p.numClients) :
    ∃ p', p.drop i = some p' ∧ PoolOwned p' ∧ p'.list = swapRemove p.list i := by
  obtain ⟨hcount, hcount'⟩ := h.counts
  have hbuffers := h.buffers
  have hpeers := h.peers
  obtain ⟨n, hn⟩ : ∃ n, p.numClients = n + 1 := ⟨p.numClients - 1, by omega⟩
  rw [hn] at hbuffers hpeers hi
  obtain ⟨buffer, lastBuffer, hbuffer, hlastBuffer, hib, hfb, hbuffers⟩ := hbuffers.release hi
  obtain ⟨peer, lastPeer, hpeer, hlastPeer, hip, hfp, hpeers⟩ := hpeers.release hi
  obtain ⟨c, -, hlist, hsock, hbytes⟩ := h.client_eq (show n < p.numClients by omega)
  have hic : i < p.clients.length := by
    rw [h.clients]
    omega
  have hin : i < p.buffered.length := by
    rw [h.buffered]
    omega
  refine ⟨{
    clients := p.clients.set i c.sock
    buffered := p.buffered.set i c.buffered
    buffers := p.buffers.set i lastBuffer
    peers := p.peers.set i lastPeer
    freeBuffers := p.freeBuffers.set p.freeBuffersCount buffer
    freePeers := p.freePeers.set p.freePeersCount peer
    numClients := n
    freeBuffersCount := p.freeBuffersCount + 1
    freePeersCount := p.freePeersCount + 1 }, ?_, ⟨hbuffers, hpeers, ?_, ?_⟩, ?_⟩
  · simp only [WorkerPool.drop, hbuffer, hlastBuffer, hpeer, hlastPeer, hsock, hbytes, hn,
      before_succ, store_eq hic, store_eq hin, store_eq hib, store_eq hip, store_eq hfb,
      store_eq hfp, Option.bind_eq_bind, Option.bind_some]
  · rw [List.length_set]
    exact h.clients
  · rw [List.length_set]
    exact h.buffered
  · have hlast : p.list.getLast? = some c := by
      rw [List.getLast?_eq_getElem?, h.length.2, hn]
      exact hlist
    rw [swapRemove, hlast]
    dsimp only
    rw [WorkerPool.list, WorkerPool.list]
    dsimp only
    rw [zipWith_set, Lib.SlotPool.take_compact (by rw [h.length.1]; omega), hn]

/-- A client that stays keeps its place. -/
theorem PoolOwned.keep (h : PoolOwned p) {i : Nat} (hi : i < p.numClients) {c c' : Client σ}
    (hc : p.clients[i]? = some c.sock) (hsock : c'.sock = c.sock) :
    store p.buffered i c'.buffered = some (p.buffered.set i c'.buffered) ∧
      PoolOwned { p with buffered := p.buffered.set i c'.buffered } ∧
      ({ p with buffered := p.buffered.set i c'.buffered } : WorkerPool σ).list =
        p.list.set i c' := by
  obtain ⟨hcount, -⟩ := h.counts
  have hin : i < p.buffered.length := by
    rw [h.buffered]
    omega
  refine ⟨store_eq hin _, ⟨h.buffers, h.peers, h.clients, ?_⟩, ?_⟩
  · rw [List.length_set]
    exact h.buffered
  · obtain ⟨hi', hget⟩ := List.getElem?_eq_some_iff.mp hc
    have hsame : p.clients = p.clients.set i c'.sock := by
      rw [hsock, ← hget, List.set_getElem_self]
    rw [WorkerPool.list, WorkerPool.list]
    dsimp only
    conv_lhs => rw [hsame]
    rw [zipWith_set, List.take_set]

/-! ## A worker with its pools -/

def PoolWorker.toWorker (wk : PoolWorker σ) : Worker σ := ⟨wk.ring, wk.pc, wk.pool.list⟩

/-- The pools are owned, and a worker that leaves its loop has no clients. -/
structure PoolWorker.Inv (wk : PoolWorker σ) : Prop where
  owned : PoolOwned wk.pool
  drained : wk.pc = .testQueue ∨ wk.pc = .exited → wk.pool.numClients = 0

/-- A turn is made without a fault, keeps the invariant, and is that of the worker with a list. -/
def PoolWorker.Turns (wk : PoolWorker σ) (stop : Bool) (a : Answers σ) : Prop :=
  ∃ r, wk.turn stop a = some r ∧ r.1.Inv ∧ (r.1.toWorker, r.2) = wk.toWorker.turn stop a

/-- Within its loop a worker may have clients. -/
theorem PoolOwned.within {wk : PoolWorker σ} (h : PoolOwned wk.pool) (htest : wk.pc ≠ .testQueue)
    (hexit : wk.pc ≠ .exited) : wk.Inv := ⟨h, fun hpc => (hpc.elim htest hexit).elim⟩

section
variable {ring : Ring σ} {stop : Bool} {a : Answers σ}

theorem PoolOwned.reap (h : PoolOwned p) (i : Nat) : (PoolWorker.mk ring (.reap i) p).Turns stop a := by
  rw [PoolWorker.Turns, PoolWorker.turn, PoolWorker.toWorker, Worker.turn]
  dsimp only
  by_cases hi : i < p.numClients
  · obtain ⟨c, hclient, hlist, -, -⟩ := h.client_eq hi
    rw [if_pos hi, hclient, hlist]
    dsimp only [Option.bind_eq_bind, Option.bind_some]
    cases a.bad with
    | true =>
      obtain ⟨p', hdrop, howned, hlist'⟩ := h.drop hi
      refine ⟨(⟨ring, .reap i, p'⟩, [c.sock]), ?_, howned.within (by simp) (by simp), ?_⟩
      · rw [if_pos rfl, hdrop]
        rfl
      · rw [if_pos rfl, PoolWorker.toWorker, hlist']
    | false => exact ⟨_, if_neg Bool.false_ne_true, h.within (by simp) (by simp), rfl⟩
  · have hout : p.list[i]? = none := List.getElem?_eq_none (by rw [h.length.2]; omega)
    rw [if_neg hi, hout]
    exact ⟨_, rfl, h.within (by simp) (by simp), rfl⟩

theorem PoolOwned.serve (h : PoolOwned p) (i : Nat) :
    (PoolWorker.mk ring (.serve i) p).Turns stop a := by
  rw [PoolWorker.Turns, PoolWorker.turn, PoolWorker.toWorker, Worker.turn]
  dsimp only
  by_cases hi : i < p.numClients
  · obtain ⟨c, hclient, hlist, hsock, -⟩ := h.client_eq hi
    rw [if_pos hi, hclient, hlist]
    dsimp only [Option.bind_eq_bind, Option.bind_some]
    cases hserve : c.serve stop a.recv with
    | none =>
      obtain ⟨p', hdrop, howned, hlist'⟩ := h.drop hi
      refine ⟨(⟨ring, .serve i, p'⟩, [c.sock]), ?_, howned.within (by simp) (by simp), ?_⟩
      · dsimp only
        rw [hdrop]
        rfl
      · rw [PoolWorker.toWorker, hlist']
    | some c' =>
      obtain ⟨hstore, howned, hlist'⟩ := h.keep hi hsock (Client.serve_sock hserve)
      refine ⟨(⟨ring, .serve (i + 1), { p with buffered := p.buffered.set i c'.buffered }⟩, []), ?_,
        howned.within (by simp) (by simp), ?_⟩
      · dsimp only
        rw [hstore]
        rfl
      · rw [PoolWorker.toWorker, hlist']
  · have hout : p.list[i]? = none := List.getElem?_eq_none (by rw [h.length.2]; omega)
    rw [if_neg hi, hout]
    exact ⟨_, rfl, h.within (by simp) (by simp), rfl⟩

theorem PoolOwned.adopts (h : PoolOwned p) : (PoolWorker.mk ring .adopt p).Turns stop a := by
  obtain ⟨hcount, -⟩ := h.counts
  rw [PoolWorker.Turns, PoolWorker.turn, PoolWorker.toWorker, Worker.turn]
  dsimp only
  generalize ring.consume = taken
  obtain ⟨ring', event⟩ := taken
  cases event with
  | none => exact ⟨_, rfl, h.within (by simp) (by simp), rfl⟩
  | some event =>
    cases event with
    | popped s =>
      dsimp only
      rw [h.length.2]
      by_cases hroom : p.numClients < 512
      · obtain ⟨p', hadopt, howned, hlist⟩ := h.adopt hroom s
        refine ⟨(⟨ring'.pop, .adopt, p'⟩, []), ?_, howned.within (by simp) (by simp), ?_⟩
        · rw [if_pos ⟨hroom, by omega⟩, hadopt]
          rfl
        · rw [if_pos hroom, PoolWorker.toWorker, hlist]
      · rw [if_neg fun hx => hroom hx.1, if_neg hroom]
        exact ⟨_, rfl, h.within (by simp) (by simp), rfl⟩
    | pushed s => exact ⟨_, rfl, h.within (by simp) (by simp), rfl⟩
    | full s => exact ⟨_, rfl, h.within (by simp) (by simp), rfl⟩
    | nothing => exact ⟨_, rfl, h.within (by simp) (by simp), rfl⟩
    | isEmpty answer => exact ⟨_, rfl, h.within (by simp) (by simp), rfl⟩

theorem PoolOwned.testsQueue (h : PoolOwned p) (hnone : p.numClients = 0) :
    (PoolWorker.mk ring .testQueue p).Turns stop a := by
  rw [PoolWorker.Turns, PoolWorker.turn, PoolWorker.toWorker, Worker.turn]
  dsimp only
  generalize ring.consume = taken
  obtain ⟨ring', event⟩ := taken
  cases event with
  | none => exact ⟨_, rfl, ⟨h, fun _ => hnone⟩, rfl⟩
  | some event =>
    cases event with
    | isEmpty answer =>
      cases answer with
      | true => exact ⟨_, rfl, ⟨h, fun _ => hnone⟩, rfl⟩
      | false => exact ⟨_, rfl, h.within (by simp) (by simp), rfl⟩
    | pushed s => exact ⟨_, rfl, h.within (by simp) (by simp), rfl⟩
    | full s => exact ⟨_, rfl, h.within (by simp) (by simp), rfl⟩
    | popped s => exact ⟨_, rfl, h.within (by simp) (by simp), rfl⟩
    | nothing => exact ⟨_, rfl, h.within (by simp) (by simp), rfl⟩

end

/-- A turn of a worker whose pools are owned. -/
theorem PoolWorker.Inv.turn {wk : PoolWorker σ} (h : wk.Inv) (stop : Bool) (a : Answers σ) :
    wk.Turns stop a := by
  obtain ⟨howned, hdrained⟩ := h
  obtain ⟨ring, pc, p⟩ := wk
  cases pc with
  | test =>
    rw [PoolWorker.Turns, PoolWorker.turn, PoolWorker.toWorker, Worker.turn]
    dsimp only at howned ⊢
    rw [howned.length.2]
    by_cases hgo : (!stop || decide (0 < p.numClients)) = true
    · rw [if_pos hgo, if_pos hgo]
      exact ⟨_, rfl, howned.within (by simp) (by simp), rfl⟩
    · rw [if_neg hgo, if_neg hgo]
      refine ⟨_, rfl, ⟨howned, fun _ => ?_⟩, rfl⟩
      rw [Bool.not_eq_true, Bool.or_eq_false_iff, decide_eq_false_iff_not] at hgo
      exact Nat.eq_zero_of_not_pos hgo.2
  | testQueue => exact howned.testsQueue (hdrained (.inl rfl))
  | select =>
    rw [PoolWorker.Turns, PoolWorker.turn, PoolWorker.toWorker, Worker.turn]
    dsimp only at howned
    dsimp only
    cases a.selectFailed with
    | true =>
      rw [if_pos rfl, if_pos rfl]
      refine ⟨_, rfl, howned.within ?_ ?_, rfl⟩ <;> cases a.badDescriptor <;> simp
    | false => exact ⟨_, if_neg Bool.false_ne_true, howned.within (by simp) (by simp), rfl⟩
  | reap i => exact howned.reap i
  | adopt => exact howned.adopts
  | serve i => exact howned.serve i
  | exited => exact ⟨_, rfl, ⟨howned, hdrained⟩, rfl⟩

theorem PoolWorker.Inv.step {wk : PoolWorker σ} (h : wk.Inv) (t : PoolTurn σ) :
    ∃ wk', wk.step t = some wk' ∧ wk'.Inv ∧ wk'.toWorker = wk.toWorker.step t := by
  cases t with
  | worker stop a =>
    obtain ⟨r, hr, hinv, hsame⟩ := h.turn stop a
    refine ⟨r.1, ?_, hinv, congrArg Prod.fst hsame⟩
    rw [PoolWorker.step, hr]
    rfl
  | push s => exact ⟨_, rfl, ⟨h.owned, h.drained⟩, rfl⟩
  | produce => exact ⟨_, rfl, ⟨h.owned, h.drained⟩, rfl⟩

theorem PoolWorker.Inv.run {wk : PoolWorker σ} (h : wk.Inv) (ts : List (PoolTurn σ)) :
    ∃ wk', wk.run ts = some wk' ∧ wk'.Inv ∧ wk'.toWorker = ts.foldl Worker.step wk.toWorker := by
  induction ts generalizing wk with
  | nil => exact ⟨wk, rfl, h, rfl⟩
  | cons t ts ih =>
    obtain ⟨next, hnext, hinv, hsame⟩ := h.step t
    obtain ⟨wk', hrun, hinv', hsame'⟩ := ih hinv
    refine ⟨wk', ?_, hinv', ?_⟩
    · rw [PoolWorker.run, hnext]
      exact hrun
    · rw [hsame', hsame, List.foldl_cons]

/-- A worker at its start, with what its arrays happen to hold. -/
def PoolWorker.start (slots : Nat → σ) (clients : Fin 512 → σ) (buffered buffers : Fin 512 → Nat) :
    PoolWorker σ :=
  ⟨Ring.init slots, .test, .setup clients buffered buffers⟩

/-- Pools from which nothing is taken. -/
theorem PoolOwned.whole {clients : List σ} {buffered buffers peers : List Nat}
    (hclients : clients.length = 512) (hbuffered : buffered.length = 512)
    (hbuffers : buffers.length = 512) (hpeers : peers.length = 512) :
    PoolOwned ⟨clients, buffered, buffers, peers, 0, List.range 512, 512, List.range 512, 512⟩ := by
  have hstart : ∀ l : List Nat, l.length = 512 →
      Owns (List.range 512) l 0 (List.range 512) 512 := by
    intro l hl
    have howns := Owns.start (hl.trans (List.length_range).symm)
    rwa [List.length_range] at howns
  constructor
  · dsimp only
    exact hstart buffers hbuffers
  · dsimp only
    exact hstart peers hpeers
  · exact hclients
  · exact hbuffered

theorem start_inv (slots : Nat → σ) (clients : Fin 512 → σ) (buffered buffers : Fin 512 → Nat) :
    (PoolWorker.start slots clients buffered buffers).Inv where
  owned := .whole List.length_ofFn List.length_ofFn List.length_ofFn List.length_range
  drained := fun _ => rfl

/-- **In every run of a worker no access is outside an array, and each buffer and each peer string is
owned by one client or is free**: once. The clients are those of the worker with a list, and when it
leaves its loop everything is free. -/
theorem pool_owned (slots : Nat → σ) (clients : Fin 512 → σ) (buffered buffers : Fin 512 → Nat)
    (ts : List (PoolTurn σ)) :
    ∃ wk, (PoolWorker.start slots clients buffered buffers).run ts = some wk ∧
      wk.pool.numClients + wk.pool.freeBuffersCount = 512 ∧
      wk.pool.numClients + wk.pool.freePeersCount = 512 ∧
      (wk.pool.buffers.take wk.pool.numClients ++
        wk.pool.freeBuffers.take wk.pool.freeBuffersCount).Perm (List.range 512) ∧
      (wk.pool.peers.take wk.pool.numClients ++
        wk.pool.freePeers.take wk.pool.freePeersCount).Perm (List.range 512) ∧
      (wk.pc = .exited → wk.pool.freeBuffersCount = 512 ∧ wk.pool.freePeersCount = 512) ∧
      wk.toWorker = ts.foldl Worker.step ⟨Ring.init slots, .test, []⟩ := by
  obtain ⟨wk, hrun, hinv, hsame⟩ := (start_inv slots clients buffered buffers).run ts
  obtain ⟨hbuffers, hpeers⟩ := hinv.owned.counts
  refine ⟨wk, hrun, hbuffers, hpeers, hinv.owned.buffers.perm, hinv.owned.peers.perm, fun hexit => ?_,
    hsame⟩
  have hnone := hinv.drained (.inr hexit)
  omega

end

end Runtime
