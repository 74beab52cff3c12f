import Orbit.Runtime.Lease
import Mathlib.Data.List.Basic

/-!
# The count of leases

The counter of active leases counts the leases that are held and the acquisitions that are under way
(`Counted`), in every state of a run, if and only if no allocation of a lease's record fails and
comes back (`counted_iff`): the counter goes up before the record is allocated, and the way back,
by `longjmp` or by a handler that returns, does not take it down (`lease_leaked`).
-/

namespace Runtime.Lease

open Arena (chargeLease orbitAlignUp ORBIT_ARENA_ALIGN)

/-- The counter counts the leases held, and the acquisitions under way. -/
def Counted (w : LeaseWorld) : Prop :=
  w.activeLeases = (w.held.length : Int) + w.acquiring.length

/-- The process ends when an allocation of the thread fails. -/
def LeaseWorld.fatal (w : LeaseWorld) (thread : Nat) : Bool :=
  match w.handler with
  | .abortDefault => true
  | .requestBoundary => !w.armed thread
  | .returns => false

/-- The lease that the thread holds already, if any, has room for the bytes. -/
def LeaseWorld.room (w : LeaseWorld) (thread : Nat) (bytes : UInt64) : Bool :=
  (chargeLease (w.charged thread) (orbitAlignUp bytes ORBIT_ARENA_ALIGN)).isSome

/-- If the act allocates the record of a lease, it gets the block or ends the process. -/
def Recorded (w : LeaseWorld) (act : LeaseAct) : Prop :=
  ∀ k now granted a, act = .record k now granted → w.acquiring[k]? = some a →
    (granted = true ∧ w.room a.thread LEASE_SIZE = true) ∨ w.fatal a.thread = true

section
variable (poolSize : Int32)

/-- Every state of the run satisfies `p`. -/
def EveryState (p : LeaseWorld → Prop) : LeaseWorld → List LeaseAct → Prop
  | w, [] => p w
  | w, act :: acts => p w ∧ ∀ w', leaseStep poolSize w act = some w' → EveryState p w' acts

/-- Every act of the run satisfies `p` in the state it meets. -/
def EveryAct (p : LeaseWorld → LeaseAct → Prop) : LeaseWorld → List LeaseAct → Prop
  | _, [] => True
  | w, act :: acts => p w act ∧ ∀ w', leaseStep poolSize w act = some w' → EveryAct p w' acts

end

/-! ## The leases that are held -/

/-- The lease of a thread is one that it holds. -/
structure Linked (w : LeaseWorld) : Prop where
  nodup : w.held.Nodup
  made : ∀ t i, (t, i) ∈ w.held → i < w.leases.length
  current : ∀ t i, w.current t = some i → (t, i) ∈ w.held

variable {poolSize : Int32} {w w' : LeaseWorld}

/-- What an allocation leaves as it is. -/
structure SameLeases (w w' : LeaseWorld) : Prop where
  count : w'.activeLeases = w.activeLeases
  held : w'.held = w.held
  acquiring : w'.acquiring = w.acquiring
  current : w'.current = w.current
  length : w'.leases.length = w.leases.length

theorem SameLeases.refl (w : LeaseWorld) : SameLeases w w := ⟨rfl, rfl, rfl, rfl, rfl⟩

theorem SameLeases.linked (h : SameLeases w w') (hw : Linked w) : Linked w' := by
  refine ⟨h.held ▸ hw.nodup, fun t i hi => ?_, fun t i hi => ?_⟩
  · rw [h.held] at hi
    rw [h.length]
    exact hw.made t i hi
  · rw [h.current] at hi
    rw [h.held]
    exact hw.current t i hi

theorem SameLeases.counted (h : SameLeases w w') : Counted w' ↔ Counted w := by
  unfold Counted
  rw [h.count, h.held, h.acquiring]

theorem allocTry_same (w : LeaseWorld) (thread : Nat) (bytes : UInt64) (granted : Bool) :
    SameLeases w (allocTry w thread bytes granted).2 := by
  unfold allocTry
  dsimp only
  split
  · exact SameLeases.refl w
  · split
    · exact SameLeases.refl w
    · unfold LeaseWorld.charge
      split
      · exact ⟨rfl, rfl, rfl, rfl, List.length_modify ..⟩
      · exact SameLeases.refl w

theorem refuse_same {thread : Nat} (h : refuse w thread = some w') : SameLeases w w' := by
  unfold refuse at h
  split at h
  · cases h
  · split at h
    · rw [← Option.some.inj h]
      exact ⟨rfl, rfl, rfl, rfl, rfl⟩
    · cases h
  · rw [← Option.some.inj h]
    exact SameLeases.refl w

/-- A lease that is held is given back. -/
theorem destroy_linked (hw : Linked w) {thread lease : Nat} (hheld : (thread, lease) ∈ w.held) :
    Linked { leaseDestroy poolSize w thread lease with held := w.held.erase (thread, lease) } ∧
      (Counted { leaseDestroy poolSize w thread lease with held := w.held.erase (thread, lease) } ↔
        Counted w) := by
  refine ⟨⟨hw.nodup.erase _, fun t i hi => hw.made t i (List.mem_of_mem_erase hi), ?_⟩, ?_⟩
  · intro t i hi
    unfold leaseDestroy at hi
    dsimp only at hi ⊢
    split at hi
    · cases hi
    · next hne =>
      rw [hw.nodup.mem_erase_iff]
      refine ⟨fun heq => hne ?_, hw.current t i hi⟩
      obtain ⟨rfl, rfl⟩ := Prod.mk.inj heq
      exact ⟨rfl, hi⟩
  · have hlen := List.length_erase_of_mem hheld
    have hpos := List.length_pos_of_mem hheld
    unfold Counted leaseDestroy
    dsimp only
    rw [hlen]
    omega

/-- Whether a failed allocation comes back. -/
theorem refuse_isSome (thread : Nat) :
    (refuse w thread).isSome = !w.fatal thread := by
  unfold refuse LeaseWorld.fatal
  cases w.handler with
  | abortDefault => rfl
  | requestBoundary => cases w.armed thread <;> rfl
  | returns => rfl

theorem allocTry_fst (w : LeaseWorld) (thread : Nat) (bytes : UInt64) (granted : Bool)
    (hbytes : orbitAlignUp bytes ORBIT_ARENA_ALIGN ≠ 0) :
    (allocTry w thread bytes granted).1 = (granted && w.room thread bytes) := by
  unfold allocTry LeaseWorld.room
  dsimp only
  rw [if_neg hbytes]
  cases chargeLease (w.charged thread) (orbitAlignUp bytes ORBIT_ARENA_ALIGN) <;> simp

theorem allocTry_fatal (w : LeaseWorld) (thread : Nat) (bytes : UInt64) (granted : Bool) (t : Nat) :
    (allocTry w thread bytes granted).2.fatal t = w.fatal t := by
  unfold allocTry
  dsimp only
  split
  · rfl
  · split
    · rfl
    · unfold LeaseWorld.charge
      split <;> rfl

/-! ## One act -/

theorem recorded_of_ne {act : LeaseAct} (h : ∀ k now granted, act ≠ .record k now granted) :
    Recorded w act := fun k now granted _ heq => absurd heq (h k now granted)

/-- The record of a lease is made. -/
theorem leaseRecord_linked (hw : Linked w) (a : Acquisition) (now : UInt64) :
    Linked (leaseRecord w a now) := by
  have hfresh : ∀ t, (t, w.leases.length) ∉ w.held :=
    fun t ht => Nat.lt_irrefl _ (hw.made t _ ht)
  refine ⟨List.nodup_cons.mpr ⟨hfresh a.thread, hw.nodup⟩, fun t i hi => ?_, fun t i hi => ?_⟩
  · unfold leaseRecord
    rw [List.length_append, List.length_singleton]
    rcases List.mem_cons.mp hi with heq | hi
    · rw [(Prod.mk.inj heq).2]
      exact Nat.lt_succ_self _
    · exact Nat.lt_succ_of_lt (hw.made t i hi)
  · unfold leaseRecord at hi ⊢
    dsimp only at hi ⊢
    split at hi
    · next ht =>
      rw [← Option.some.inj hi, ht]
      exact List.mem_cons_self
    · exact List.mem_cons_of_mem _ (hw.current t i hi)

/-- **The second half of an acquisition** keeps the count if and only if it gets its record. -/
theorem record_counted (hw : Linked w) (hcounted : Counted w) {k : Nat} {now : UInt64}
    {granted : Bool} (hstep : leaseStep poolSize w (.record k now granted) = some w') :
    Linked w' ∧ (Counted w' ↔ Recorded w (.record k now granted)) := by
  simp only [leaseStep, Option.bind_eq_bind, Option.bind_eq_some_iff] at hstep
  obtain ⟨a, ha, hstep⟩ := hstep
  have hk : k < w.acquiring.length := (List.getElem?_eq_some_iff.mp ha).1
  have hlen := List.length_eraseIdx_of_lt hk
  generalize hw₁ : ({ w with acquiring := w.acquiring.eraseIdx k } : LeaseWorld) = w₁ at hstep
  have hlinked : Linked w₁ := hw₁ ▸ ⟨hw.nodup, hw.made, hw.current⟩
  have hroom : w₁.room a.thread LEASE_SIZE = w.room a.thread LEASE_SIZE := hw₁ ▸ rfl
  have hfatal : w₁.fatal a.thread = w.fatal a.thread := hw₁ ▸ rfl
  have hsame := allocTry_same w₁ a.thread LEASE_SIZE granted
  have hfst := allocTry_fst w₁ a.thread LEASE_SIZE granted (by decide)
  have hone : w₁.activeLeases = (w₁.held.length : Int) + w₁.acquiring.length + 1 := by
    unfold Counted at hcounted
    rw [← hw₁]
    dsimp only
    rw [hlen]
    omega
  have hiff : Recorded w (.record k now granted) ↔
      (granted = true ∧ w.room a.thread LEASE_SIZE = true) ∨ w.fatal a.thread = true := by
    constructor
    · exact fun h => h k now granted a rfl ha
    · rintro h k' now' granted' a' heq ha'
      obtain ⟨rfl, rfl, rfl⟩ := LeaseAct.record.inj heq
      rw [ha, Option.some.injEq] at ha'
      exact ha' ▸ h
  rw [hiff]
  split at hstep
  · next hgot =>
    rw [hfst, hroom, Bool.and_eq_true] at hgot
    rw [← Option.some.inj hstep]
    refine ⟨leaseRecord_linked (hsame.linked hlinked) a now, fun _ => .inl hgot, fun _ => ?_⟩
    unfold Counted leaseRecord
    dsimp only
    rw [hsame.count, hsame.held, hsame.acquiring, List.length_cons]
    omega
  · next hgot =>
    rw [hfst, hroom, Bool.and_eq_true] at hgot
    have hback := refuse_same hstep
    have hsome := refuse_isSome (w := (allocTry w₁ a.thread LEASE_SIZE granted).2) a.thread
    rw [hstep, Option.isSome_some, allocTry_fatal, hfatal] at hsome
    refine ⟨hback.linked (hsame.linked hlinked), fun hbad => ?_, fun h => ?_⟩
    · rw [hback.counted, hsame.counted] at hbad
      unfold Counted at hbad
      omega
    · rcases h with h | h
      · exact absurd h hgot
      · rw [h] at hsome
        cases hsome

/-- An act that cannot be done allocates no record, or ends the process. -/
theorem recorded_of_none {act : LeaseAct} (hstep : leaseStep poolSize w act = none) :
    Recorded w act := by
  rintro k now granted a rfl ha
  simp only [leaseStep, Option.bind_eq_bind, ha, Option.bind_some] at hstep
  generalize hw₁ : ({ w with acquiring := w.acquiring.eraseIdx k } : LeaseWorld) = w₁ at hstep
  have hfatal : w₁.fatal a.thread = w.fatal a.thread := hw₁ ▸ rfl
  split at hstep
  · cases hstep
  · have hnone := refuse_isSome (w := (allocTry w₁ a.thread LEASE_SIZE granted).2) a.thread
    rw [hstep, allocTry_fatal, hfatal] at hnone
    refine .inr ?_
    cases hf : w.fatal a.thread
    · rw [hf] at hnone
      cases hnone
    · rfl

/-- **An act keeps the count if and only if it gets its record.** -/
theorem leaseStep_counted (hw : Linked w) (hcounted : Counted w) {act : LeaseAct}
    (hstep : leaseStep poolSize w act = some w') : Linked w' ∧ (Counted w' ↔ Recorded w act) := by
  have hkeep : ∀ {w' : LeaseWorld}, Linked w' ∧ (Counted w' ↔ Counted w) →
      (∀ k now granted, act ≠ .record k now granted) →
      Linked w' ∧ (Counted w' ↔ Recorded w act) :=
    fun h hne => ⟨h.1, fun _ => recorded_of_ne hne, fun _ => h.2.mpr hcounted⟩
  cases act with
  | record k now granted => exact record_counted hw hcounted hstep
  | acquire thread path =>
    simp only [leaseStep] at hstep
    split at hstep
    · cases hstep
    · rw [← Option.some.inj hstep]
      refine hkeep ⟨⟨hw.nodup, hw.made, hw.current⟩, ?_⟩ nofun
      unfold Counted
      dsimp only
      rw [List.length_append, List.length_singleton]
      omega
  | alloc thread bytes granted =>
    have hsame := allocTry_same w thread bytes granted
    simp only [leaseStep] at hstep
    split at hstep
    · cases hstep
    · split at hstep
      · rw [← Option.some.inj hstep]
        exact hkeep ⟨hw, Iff.rfl⟩ nofun
      · split at hstep
        · rw [← Option.some.inj hstep]
          exact hkeep ⟨hsame.linked hw, hsame.counted⟩ nofun
        · have hback := refuse_same hstep
          exact hkeep ⟨hback.linked (hsame.linked hw), hback.counted.trans hsame.counted⟩ nofun
  | release thread lease =>
    simp only [leaseStep] at hstep
    split at hstep
    · next hheld =>
      rw [Bool.and_eq_true, List.contains_iff_mem] at hheld
      rw [← Option.some.inj hstep]
      exact hkeep (destroy_linked hw hheld.2) nofun
    · cases hstep
  | abandon thread =>
    simp only [leaseStep] at hstep
    split at hstep
    · cases hstep
    · split at hstep
      · rw [← Option.some.inj hstep]
        exact hkeep ⟨hw, Iff.rfl⟩ nofun
      · next lease hcurrent =>
        rw [← Option.some.inj hstep]
        exact hkeep (destroy_linked hw (hw.current thread lease hcurrent)) nofun
  | install handler =>
    rw [← Option.some.inj hstep]
    exact hkeep ⟨⟨hw.nodup, hw.made, hw.current⟩, Iff.rfl⟩ nofun
  | arm thread =>
    rw [← Option.some.inj hstep]
    exact hkeep ⟨⟨hw.nodup, hw.made, hw.current⟩, Iff.rfl⟩ nofun
  | disarm thread =>
    rw [← Option.some.inj hstep]
    exact hkeep ⟨⟨hw.nodup, hw.made, hw.current⟩, Iff.rfl⟩ nofun

/-! ## Runs -/

theorem everyState_head {p : LeaseWorld → Prop} {acts : List LeaseAct}
    (h : EveryState poolSize p w acts) : p w := by
  cases acts with
  | nil => exact h
  | cons act acts => exact h.1

/-- **The counter counts the leases in every state of a run if and only if** every allocation of a
lease's record in it gets its block or ends the process. -/
theorem counted_iff (poolSize : Int32) (acts : List LeaseAct) :
    EveryState poolSize Counted leaseInit acts ↔ EveryAct poolSize Recorded leaseInit acts := by
  suffices h : ∀ w : LeaseWorld, Linked w → Counted w →
      (EveryState poolSize Counted w acts ↔ EveryAct poolSize Recorded w acts) from
    h leaseInit ⟨.nil, nofun, nofun⟩ rfl
  induction acts with
  | nil => exact fun w _ hcounted => ⟨fun _ => trivial, fun _ => hcounted⟩
  | cons act acts ih =>
    intro w hw hcounted
    unfold EveryState EveryAct
    constructor
    · rintro ⟨-, hnext⟩
      refine ⟨?_, fun w' hstep => ?_⟩
      · cases hstep : leaseStep poolSize w act with
        | none => exact recorded_of_none hstep
        | some w' =>
          exact (leaseStep_counted hw hcounted hstep).2.mp (everyState_head (hnext w' hstep))
      · obtain ⟨hlinked, hiff⟩ := leaseStep_counted hw hcounted hstep
        have hrest := hnext w' hstep
        exact (ih w' hlinked (everyState_head hrest)).mp hrest
    · rintro ⟨hact, hnext⟩
      refine ⟨hcounted, fun w' hstep => ?_⟩
      obtain ⟨hlinked, hiff⟩ := leaseStep_counted hw hcounted hstep
      exact (ih w' hlinked (hiff.mpr hact)).mpr (hnext w' hstep)

/-- A request whose thread arms the boundary, acquires, has its record refused and comes back by
`longjmp`: the worker abandons the lease of the thread, and there is none. -/
theorem lease_leaked :
    let acts : List LeaseAct := [.install .requestBoundary, .arm 0, .acquire 0 ['/'],
      .record 0 0 false, .abandon 0]
    (∃ w, acts.foldlM (leaseStep 512) leaseInit = some w ∧ w.activeLeases = 1 ∧ w.held = [] ∧
      w.acquiring = []) ∧ ¬ EveryState 512 Counted leaseInit acts := by
  refine ⟨⟨_, rfl, rfl, rfl, rfl⟩, fun h => ?_⟩
  have hlast := ((((h.2 _ rfl).2 _ rfl).2 _ rfl).2 _ rfl).2 _ rfl
  exact absurd (show (1 : Int) = 0 from hlast) (by decide)

end Runtime.Lease
