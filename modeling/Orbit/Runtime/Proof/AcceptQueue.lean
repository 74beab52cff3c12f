import Mathlib.Data.List.GetD
import Orbit.Runtime.AcceptQueue

/-!
# The ring is a bounded queue

`Ring.Holds r q`: the slots from `head` on hold `q`, at most one less than the capacity, and what a
party has read in its operation is still so. A turn of a party keeps it and ends an operation only
as a queue of 255 places does (`produce_spec`, `consume_spec`), whatever the other party is doing. So
the results of every schedule are those of a queue (`Ring.run_legal`), and the sockets come out in
the order in which they went in (`acceptQueue_fifo`).
-/

namespace Runtime

open Lib.Fifo

section
variable {σ : Type} {r : Ring σ} {q : List σ}

/-- What the producer has read: its own index, and that there is room. -/
def Push.Holds (p : Push σ) (r : OrbitAcceptQueue σ) (q : List σ) : Prop :=
  match p with
  | .idle | .call _ => True
  | .loaded _ t => t = r.tail
  | .room _ t => t = r.tail ∧ q.length + 1 < ORBIT_ACCEPT_Q_CAP
  | .written s t => t = r.tail ∧ q.length + 1 < ORBIT_ACCEPT_Q_CAP ∧ r.slots t = s

/-- What the consumer has read: its own index, that the ring is not empty, the first socket. -/
def Pop.Holds (p : Pop σ) (r : OrbitAcceptQueue σ) (q : List σ) : Prop :=
  match p with
  | .idle | .call | .callEmpty => True
  | .loaded h | .loadedEmpty h => h = r.head
  | .other h => h = r.head ∧ q ≠ []
  | .read h out => h = r.head ∧ q.head? = some out

/-- The ring holds `q`. -/
structure Ring.Holds (r : Ring σ) (q : List σ) : Prop where
  head : r.q.head < ORBIT_ACCEPT_Q_CAP
  room : q.length < ORBIT_ACCEPT_Q_CAP
  tail : r.q.tail = (r.q.head + q.length) % ORBIT_ACCEPT_Q_CAP
  slots : ∀ i x, q[i]? = some x → r.q.slots ((r.q.head + i) % ORBIT_ACCEPT_Q_CAP) = x
  producer : r.producer.Holds r.q q
  consumer : r.consumer.Holds r.q q

theorem Ring.init_holds (slots : Nat → σ) : (Ring.init slots).Holds [] where
  head := Nat.zero_lt_succ _
  room := Nat.zero_lt_succ _
  tail := rfl
  slots := by simp
  producer := trivial
  consumer := trivial

/-- The next index is the consumer's exactly when there is no room. -/
theorem next_eq_head_iff (h : r.Holds q) :
    (r.q.tail + 1) % ORBIT_ACCEPT_Q_CAP = r.q.head ↔ q.length = ORBIT_ACCEPT_Q_CAP - 1 := by
  obtain ⟨hhead, hroom, htail, -, -, -⟩ := h
  simp only [ORBIT_ACCEPT_Q_CAP] at *
  omega

/-- The indices are the same exactly when nothing is held. -/
theorem head_eq_tail_iff (h : r.Holds q) : r.q.head = r.q.tail ↔ q = [] := by
  obtain ⟨hhead, hroom, htail, -, -, -⟩ := h
  rw [← List.length_eq_zero_iff]
  simp only [ORBIT_ACCEPT_Q_CAP] at *
  omega

/-- The slot at the producer's index holds nothing. -/
theorem tail_ne_slot (h : r.Holds q) {i : Nat} (hi : i < q.length) :
    (r.q.head + i) % ORBIT_ACCEPT_Q_CAP ≠ r.q.tail := by
  obtain ⟨hhead, hroom, htail, -, -, -⟩ := h
  simp only [ORBIT_ACCEPT_Q_CAP] at *
  omega

/-- What a turn of a party does to the queue: nothing, or what the operation that it ends does. -/
def Turns (r' : Ring σ × Option (Event σ)) (q : List σ) : Prop :=
  ∃ q', r'.1.Holds q' ∧ (r'.2 = none ∧ q' = q ∨
    ∃ e, r'.2 = some e ∧ Step (ORBIT_ACCEPT_Q_CAP - 1) q e q')

theorem Turns.silent (h : r.Holds q) : Turns (r, none) q := ⟨q, h, .inl ⟨rfl, rfl⟩⟩

theorem Turns.ends {e : Event σ} {q' : List σ} (h : r.Holds q')
    (hs : Step (ORBIT_ACCEPT_Q_CAP - 1) q e q') : Turns (r, some e) q :=
  ⟨q', h, .inr ⟨e, rfl, hs⟩⟩

/-- A change of what the producer knows. -/
theorem Ring.Holds.withProducer (h : r.Holds q) {p : Push σ} (hp : p.Holds r.q q) :
    Ring.Holds { r with producer := p } q :=
  ⟨h.head, h.room, h.tail, h.slots, hp, h.consumer⟩

theorem Ring.Holds.withConsumer (h : r.Holds q) {p : Pop σ} (hp : p.Holds r.q q) :
    Ring.Holds { r with consumer := p } q :=
  ⟨h.head, h.room, h.tail, h.slots, h.producer, hp⟩

/-- What the consumer knows is about its own index and the front of the queue. -/
theorem Pop.Holds.append {p : Pop σ} {r r' : OrbitAcceptQueue σ} (h : p.Holds r q)
    (hhead : r'.head = r.head) (more : List σ) : p.Holds r' (q ++ more) := by
  cases p with
  | idle | call | callEmpty => trivial
  | loaded h' | loadedEmpty h' => exact h.trans hhead.symm
  | other h' =>
    obtain ⟨hown, hne⟩ := h
    exact ⟨hown.trans hhead.symm, by simp [hne]⟩
  | read h' out =>
    obtain ⟨hown, hfirst⟩ := h
    exact ⟨hown.trans hhead.symm, by rw [List.head?_append, hfirst]; rfl⟩

/-- What the producer knows stays so when the consumer takes a socket. -/
theorem Push.Holds.tail {p : Push σ} {r r' : OrbitAcceptQueue σ} {x : σ}
    (h : p.Holds r (x :: q)) (htail : r'.tail = r.tail) (hslots : r'.slots = r.slots) :
    p.Holds r' q := by
  cases p with
  | idle | call _ => trivial
  | loaded s t => exact h.trans htail.symm
  | room s t =>
    obtain ⟨hown, hroom⟩ := h
    exact ⟨hown.trans htail.symm, Nat.lt_of_succ_lt hroom⟩
  | written s t =>
    obtain ⟨hown, hroom, hslot⟩ := h
    exact ⟨hown.trans htail.symm, Nat.lt_of_succ_lt hroom, by rw [hslots, hslot]⟩

/-- **A turn of the producer.** -/
theorem produce_spec (h : r.Holds q) : Turns r.produce q := by
  have hknow := h.producer
  rw [Ring.produce]
  cases hp : r.producer with
  | idle => exact .silent h
  | call s => exact .silent (h.withProducer rfl)
  | loaded s t =>
    obtain rfl : t = r.q.tail := by rwa [hp] at hknow
    dsimp only
    split_ifs with hnext
    · rw [next_eq_head_iff h] at hnext
      exact .ends (h.withProducer trivial) (.full hnext)
    · rw [next_eq_head_iff h] at hnext
      have := h.room
      exact .silent (h.withProducer ⟨rfl, by omega⟩)
  | room s t =>
    rw [hp] at hknow
    obtain ⟨rfl, hroom⟩ := hknow
    refine .silent ⟨h.head, h.room, h.tail, fun i x hx => ?_, ⟨rfl, hroom, if_pos rfl⟩, ?_⟩
    · have hi : i < q.length := (List.getElem?_eq_some_iff.mp hx).1
      exact (if_neg (tail_ne_slot h hi)).trans (h.slots i x hx)
    · rw [← List.append_nil q]
      exact h.consumer.append rfl []
  | written s t =>
    rw [hp] at hknow
    obtain ⟨rfl, hroom, hslot⟩ := hknow
    have htail := h.tail
    refine .ends ⟨h.head, ?_, ?_, fun i x hx => ?_, trivial, h.consumer.append rfl [s]⟩
      (.pushed (by omega))
    · rw [List.length_append]
      exact hroom
    · simp only [List.length_append, List.length_singleton, ORBIT_ACCEPT_Q_CAP] at htail ⊢
      omega
    · rw [List.getElem?_append] at hx
      split_ifs at hx with hi
      · exact h.slots i x hx
      · have hlt : i - q.length < 1 := (List.getElem?_eq_some_iff.mp hx).1
        obtain rfl : i = q.length := by omega
        obtain rfl : s = x := by simpa using hx
        rw [← htail, hslot]

/-- **A turn of the consumer.** -/
theorem consume_spec (h : r.Holds q) : Turns r.consume q := by
  have hknow := h.consumer
  rw [Ring.consume]
  cases hp : r.consumer with
  | idle => exact .silent h
  | call => exact .silent (h.withConsumer rfl)
  | callEmpty => exact .silent (h.withConsumer rfl)
  | loaded h' =>
    obtain rfl : h' = r.q.head := by rwa [hp] at hknow
    dsimp only
    split_ifs with heq
    · obtain rfl : q = [] := (head_eq_tail_iff h).mp heq
      exact .ends (h.withConsumer trivial) .nothing
    · exact .silent (h.withConsumer ⟨rfl, fun hq => heq ((head_eq_tail_iff h).mpr hq)⟩)
  | loadedEmpty h' =>
    obtain rfl : h' = r.q.head := by rwa [hp] at hknow
    have hanswer : decide (r.q.head = r.q.tail) = q.isEmpty := by
      rw [Bool.eq_iff_iff, decide_eq_true_iff, head_eq_tail_iff h, List.isEmpty_iff]
    dsimp only
    rw [hanswer]
    exact .ends (h.withConsumer trivial) .isEmpty
  | other h' =>
    rw [hp] at hknow
    obtain ⟨rfl, hne⟩ := hknow
    obtain ⟨x, q, rfl⟩ := List.exists_cons_of_ne_nil hne
    have hslot := h.slots 0 x rfl
    rw [Nat.add_zero, Nat.mod_eq_of_lt h.head] at hslot
    exact .silent (h.withConsumer ⟨rfl, congrArg some hslot.symm⟩)
  | read h' out =>
    rw [hp] at hknow
    obtain ⟨rfl, hfirst⟩ := hknow
    obtain ⟨q, rfl⟩ := List.head?_eq_some_iff.mp hfirst
    have htail := h.tail
    have hlen := h.room
    rw [List.length_cons] at htail hlen
    refine .ends ⟨Nat.mod_lt _ (by decide), Nat.lt_of_succ_lt hlen, ?_, fun i x hx => ?_,
      h.producer.tail rfl rfl, trivial⟩ .popped
    · dsimp only
      simp only [ORBIT_ACCEPT_Q_CAP] at htail ⊢
      omega
    · have hslot := h.slots (i + 1) x hx
      rw [← hslot, Nat.mod_add_mod, Nat.add_right_comm, Nat.add_assoc]

/-- A call starts an operation and does nothing else. -/
theorem call_spec (h : r.Holds q) :
    (∀ s, (r.push s).Holds q) ∧ r.pop.Holds q ∧ r.empty.Holds q := by
  refine ⟨fun s => ?_, ?_, ?_⟩
  · rw [Ring.push]
    cases hp : r.producer with
    | idle => exact h.withProducer trivial
    | _ => exact h
  · rw [Ring.pop]
    cases hp : r.consumer with
    | idle => exact h.withConsumer trivial
    | _ => exact h
  · rw [Ring.empty]
    cases hp : r.consumer with
    | idle => exact h.withConsumer trivial
    | _ => exact h

theorem turn_spec (h : r.Holds q) (a : RingTurn σ) : Turns (r.turn a) q := by
  cases a with
  | push s => exact .silent ((call_spec h).1 s)
  | pop => exact .silent (call_spec h).2.1
  | empty => exact .silent (call_spec h).2.2
  | producer => exact produce_spec h
  | consumer => exact consume_spec h

/-- The results of a schedule go on as those of a queue. -/
theorem Ring.run_spec (h : r.Holds q) {log : List (Event σ)}
    (hlog : Legal (ORBIT_ACCEPT_Q_CAP - 1) log q) (turns : List (RingTurn σ)) :
    ∃ q', (r.run turns).1.Holds q' ∧
      Legal (ORBIT_ACCEPT_Q_CAP - 1) (log ++ (r.run turns).2) q' := by
  induction turns generalizing r q log with
  | nil => exact ⟨q, h, by rwa [Ring.run, List.append_nil]⟩
  | cons a turns ih =>
    obtain ⟨q', h', ⟨hnone, rfl⟩ | ⟨e, he, hs⟩⟩ := turn_spec h a
    · obtain ⟨q', hend, hlegal⟩ := ih h' hlog
      refine ⟨q', hend, ?_⟩
      rwa [Ring.run, hnone, Option.toList_none, List.nil_append]
    · obtain ⟨q', hend, hlegal⟩ := ih h' (hlog.snoc hs)
      refine ⟨q', hend, ?_⟩
      rwa [Ring.run, he, Option.toList_some, ← List.append_assoc]

/-- **The ring refines a queue of 255 places**: the results of every schedule are legal for it. -/
theorem Ring.run_legal (slots : Nat → σ) (turns : List (RingTurn σ)) :
    ∃ q, ((Ring.init slots).run turns).1.Holds q ∧
      Legal (ORBIT_ACCEPT_Q_CAP - 1) ((Ring.init slots).run turns).2 q :=
  Ring.run_spec (Ring.init_holds slots) .nil turns

/-- **Every socket comes out once and in order**, for every order of the parties' loads and stores;
a push fails only when 255 sockets wait, and a pop only when none does. -/
theorem acceptQueue_fifo (slots : Nat → σ) (turns : List (RingTurn σ)) :
    pops ((Ring.init slots).run turns).2 <+: pushes ((Ring.init slots).run turns).2 ∧
    (∀ pre s post, ((Ring.init slots).run turns).2 = pre ++ .full s :: post →
      (pushes pre).length = (pops pre).length + (ORBIT_ACCEPT_Q_CAP - 1)) ∧
    (∀ pre post, ((Ring.init slots).run turns).2 = pre ++ .nothing :: post →
      pops pre = pushes pre) := by
  obtain ⟨q, -, hlegal⟩ := Ring.run_legal slots turns
  exact ⟨hlegal.pops_prefix, fun pre s post h => hlegal.full_length h,
    fun pre post h => hlegal.nothing_left h⟩

end

end Runtime
