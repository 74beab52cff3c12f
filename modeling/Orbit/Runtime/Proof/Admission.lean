import Mathlib.Algebra.Group.Int.Defs
import Mathlib.Algebra.Group.Nat.Defs
import Orbit.Runtime.Proof.Lease

/-!
# The admission state and the flag of a siege

The state follows the number of leases with hysteresis: on every run of acquisitions and releases it
is in the band of the count (`leases_in_band`), unless three times the size of the pool is no `int`
any more, and the threads come to it when their updates do not overlap (`leases_refine`).

The flag is stored behind the state. It says whether there is a siege whenever no thread stands
between its two stores, on the runs where no thread stores the state while another stands there
(`siege_flag_agrees`). Where one does, a siege can end with the flag still set (`siege_flag_stuck`).
-/

namespace Runtime.Admission

open Lease (OrbitKynxState kynxUpdateAdmissionState kynxPoolThresholds KynxThresholds releaseLevel)

/-! ## Thresholds -/

/-- The size that the thresholds are fractions of. -/
def poolOf (poolSize : Int32) : Int :=
  if poolSize.toInt ≤ 0 then 512 else if poolSize.toInt < 16 then 16 else poolSize.toInt

theorem poolOf_range (poolSize : Int32) : 16 ≤ poolOf poolSize ∧ poolOf poolSize < 2 ^ 31 := by
  have hlt := poolSize.toInt_lt
  rw [poolOf]
  split_ifs <;> omega

theorem thresholds_eq (poolSize : Int32) : kynxPoolThresholds poolSize =
    ⟨poolOf poolSize / 16, poolOf poolSize / 4, poolOf poolSize⟩ := by
  obtain ⟨hlow, -⟩ := poolOf_range poolSize
  have hpool : (if (if poolSize.toInt ≤ 0 then 512 else poolSize.toInt) < 16 then 16
      else if poolSize.toInt ≤ 0 then 512 else poolSize.toInt) = poolOf poolSize := by
    rw [poolOf]
    split_ifs <;> omega
  rw [kynxPoolThresholds, hpool, Int.tdiv_eq_ediv_of_nonneg (by omega),
    Int.tdiv_eq_ediv_of_nonneg (by omega), if_neg (show ¬ poolOf poolSize / 16 < 1 by omega),
    if_neg (show ¬ poolOf poolSize / 4 ≤ poolOf poolSize / 16 by omega),
    if_neg (show ¬ poolOf poolSize ≤ poolOf poolSize / 4 by omega)]

/-- The tiers are in order for every size of the pool, and three times an entry level is an `int`, for
the highest up to a size of 715827882. -/
theorem thresholds_ordered (poolSize : Int32) :
    (1 ≤ (kynxPoolThresholds poolSize).shaped ∧
        4 * (kynxPoolThresholds poolSize).shaped ≤ (kynxPoolThresholds poolSize).guarded ∧
        4 * (kynxPoolThresholds poolSize).guarded ≤ (kynxPoolThresholds poolSize).siege) ∧
      (kynxPoolThresholds poolSize).guarded * 3 < 2 ^ 31 ∧
      ((kynxPoolThresholds poolSize).siege * 3 < 2 ^ 31 ↔ poolSize.toInt ≤ 715827882) := by
  obtain ⟨hlow, hhigh⟩ := poolOf_range poolSize
  have hsize : poolOf poolSize ≤ 715827882 ↔ poolSize.toInt ≤ 715827882 := by
    rw [poolOf]
    split_ifs <;> omega
  rw [thresholds_eq]
  dsimp only
  rw [← hsize]
  omega

theorem releaseLevel_eq {level : Int} (h₀ : 0 ≤ level) (h : level * 3 < 2 ^ 31) :
    releaseLevel level = level * 3 / 4 := by
  rw [releaseLevel, Int.bmod_eq_of_le (by omega) (by omega), Int.tdiv_eq_ediv_of_nonneg (by omega)]

/-- The release levels are three quarters of the entry levels, the highest as long as three times that
is an `int`. -/
theorem releaseLevels (poolSize : Int32) :
    releaseLevel (poolOf poolSize / 16) = poolOf poolSize / 16 * 3 / 4 ∧
      releaseLevel (poolOf poolSize / 4) = poolOf poolSize / 4 * 3 / 4 ∧
      (poolSize.toInt ≤ 715827882 → releaseLevel (poolOf poolSize) = poolOf poolSize * 3 / 4) := by
  obtain ⟨hlow, hhigh⟩ := poolOf_range poolSize
  refine ⟨releaseLevel_eq (by omega) (by omega), releaseLevel_eq (by omega) (by omega), fun hsize =>
    releaseLevel_eq (by omega) ?_⟩
  rw [poolOf]
  split_ifs <;> omega

/-! ## The band of the count -/

/-- The counts that a state goes with. -/
def Band (t : KynxThresholds) (active : Int) : OrbitKynxState → Prop
  | .stable => active ≤ t.shaped
  | .shaped => t.shaped * 3 / 4 < active ∧ active ≤ t.guarded
  | .guarded => t.guarded * 3 / 4 < active ∧ active ≤ t.siege
  | .siege => t.siege * 3 / 4 < active

/-- One lease more or less moves the state by a tier at most. -/
theorem band_step {poolSize : Int32} (hsize : poolSize.toInt ≤ 715827882) {active active' : Int}
    {state : OrbitKynxState} (h : Band (kynxPoolThresholds poolSize) active state)
    (hnext : active' = active + 1 ∨ active' = active - 1) :
    Band (kynxPoolThresholds poolSize) active' (kynxUpdateAdmissionState poolSize active' state) := by
  obtain ⟨hlow, -⟩ := poolOf_range poolSize
  obtain ⟨hshaped, hguarded, hsiege⟩ := releaseLevels poolSize
  unfold kynxUpdateAdmissionState
  rw [thresholds_eq] at h ⊢
  cases state with
  | stable =>
    simp only [Band] at h ⊢
    split_ifs <;> simp only <;> omega
  | shaped =>
    simp only [Band, hshaped] at h ⊢
    split_ifs <;> simp only <;> omega
  | guarded =>
    simp only [Band, hguarded] at h ⊢
    split_ifs <;> simp only <;> omega
  | siege =>
    simp only [Band, hsiege hsize] at h ⊢
    split_ifs <;> simp only <;> omega

/-- What an act does to the count and the state. -/
def Moves (poolSize : Int32) (w w' : Lease.LeaseWorld) : Prop :=
  (w'.activeLeases = w.activeLeases ∧ w'.state = w.state) ∨
    ((w'.activeLeases = w.activeLeases + 1 ∨ w'.activeLeases = w.activeLeases - 1) ∧
      w'.state = kynxUpdateAdmissionState poolSize w'.activeLeases w.state)

theorem allocTry_state (w : Lease.LeaseWorld) (thread : Nat) (bytes : UInt64) (granted : Bool) :
    (Lease.allocTry w thread bytes granted).2.state = w.state := by
  unfold Lease.allocTry Lease.LeaseWorld.charge
  dsimp only
  split
  · rfl
  · split
    · rfl
    · split <;> rfl

theorem refuse_state {w w' : Lease.LeaseWorld} {thread : Nat} (h : Lease.refuse w thread = some w') :
    w'.state = w.state := by
  unfold Lease.refuse at h
  split at h
  · exact nomatch h
  · split at h
    · rw [← Option.some.inj h]
    · exact nomatch h
  · rw [← Option.some.inj h]

/-- An allocation that gives a block or is refused moves nothing. -/
theorem moves_alloc {poolSize : Int32} {w w' : Lease.LeaseWorld} {thread : Nat} {bytes : UInt64}
    {granted : Bool} (u : Lease.LeaseWorld) (keep : Lease.LeaseWorld → Lease.LeaseWorld)
    (hkeep : ∀ v, (keep v).activeLeases = v.activeLeases ∧ (keep v).state = v.state)
    (hcount : u.activeLeases = w.activeLeases) (hstate : u.state = w.state)
    (h : (if (Lease.allocTry u thread bytes granted).1 then
        some (keep (Lease.allocTry u thread bytes granted).2)
      else Lease.refuse (Lease.allocTry u thread bytes granted).2 thread) = some w') :
    Moves poolSize w w' := by
  have hc := (Lease.allocTry_same u thread bytes granted).count
  have hs := allocTry_state u thread bytes granted
  refine .inl ?_
  split_ifs at h
  · rw [← Option.some.inj h, (hkeep _).1, (hkeep _).2, hc, hs]
    exact ⟨hcount, hstate⟩
  · rw [(Lease.refuse_same h).count, refuse_state h, hc, hs]
    exact ⟨hcount, hstate⟩

theorem leaseStep_moves {poolSize : Int32} {w w' : Lease.LeaseWorld} {act : Lease.LeaseAct}
    (h : Lease.leaseStep poolSize w act = some w') : Moves poolSize w w' := by
  unfold Lease.leaseStep at h
  dsimp only at h
  cases act with
  | acquire thread path =>
    dsimp only at h
    split_ifs at h
    rw [← Option.some.inj h]
    exact .inr ⟨.inl rfl, rfl⟩
  | record k now granted =>
    obtain ⟨a, -, h⟩ := Option.bind_eq_some_iff.mp h
    exact moves_alloc { w with acquiring := w.acquiring.eraseIdx k }
      (fun v => Lease.leaseRecord v a now) (fun _ => ⟨rfl, rfl⟩) rfl rfl h
  | alloc thread bytes granted =>
    dsimp only at h
    split at h
    · exact nomatch h
    · split at h
      · rw [← Option.some.inj h]
        exact .inl ⟨rfl, rfl⟩
      · exact moves_alloc w id (fun _ => ⟨rfl, rfl⟩) rfl rfl h
  | release thread lease =>
    dsimp only at h
    split_ifs at h
    rw [← Option.some.inj h]
    exact .inr ⟨.inr rfl, rfl⟩
  | abandon thread =>
    dsimp only at h
    split_ifs at h
    split at h
    · rw [← Option.some.inj h]
      exact .inl ⟨rfl, rfl⟩
    · rw [← Option.some.inj h]
      exact .inr ⟨.inr rfl, rfl⟩
  | install handler =>
    rw [← Option.some.inj h]
    exact .inl ⟨rfl, rfl⟩
  | arm thread =>
    rw [← Option.some.inj h]
    exact .inl ⟨rfl, rfl⟩
  | disarm thread =>
    rw [← Option.some.inj h]
    exact .inl ⟨rfl, rfl⟩

theorem leases_band_from {poolSize : Int32} (hsize : poolSize.toInt ≤ 715827882)
    (acts : List Lease.LeaseAct) {w : Lease.LeaseWorld}
    (h : Band (kynxPoolThresholds poolSize) w.activeLeases w.state) :
    Lease.EveryState poolSize
      (fun w => Band (kynxPoolThresholds poolSize) w.activeLeases w.state) w acts := by
  induction acts generalizing w with
  | nil => exact h
  | cons act acts ih =>
    refine ⟨h, fun w' hstep => ih ?_⟩
    rcases leaseStep_moves hstep with ⟨hc, hs⟩ | ⟨hc, hs⟩
    · rw [hc, hs]
      exact h
    · rw [hs]
      exact band_step hsize h hc

/-- A lease is created or destroyed, with its update of the state, as one step. -/
def moved (poolSize : Int32) (w : World) (up : Bool) : World :=
  let active := w.active + if up then 1 else -1
  let state := kynxUpdateAdmissionState poolSize active w.state
  { w with
    active
    state
    siegeActive := if state = w.state then w.siegeActive else state = OrbitKynxState.siege }

/-- The acts of a thread for it, when no other takes a turn. -/
def solo (poolSize : Int32) (w : World) (t : Nat) (up : Bool) : List Act :=
  (if up then .create t else .destroy t) ::
    List.replicate (if (moved poolSize w up).state = w.state then 2 else 5) (.advance t)

def sequential (poolSize : Int32) (w : World) : List (Nat × Bool) → List Act
  | [] => []
  | (t, up) :: ops => solo poolSize w t up ++ sequential poolSize (moved poolSize w up) ops

theorem run_append (poolSize : Int32) (w : World) (as bs : List Act) :
    run poolSize w (as ++ bs) = (run poolSize w as).bind fun v => run poolSize v bs :=
  List.foldlM_append

theorem run_cons {poolSize : Int32} {w v : World} {act : Act} (acts : List Act)
    (h : step poolSize w act = some v) : run poolSize w (act :: acts) = run poolSize v acts := by
  rw [run, List.foldlM_cons, h]
  rfl

theorem goto_self (w : World) (t : Nat) (pc : Pc) : (w.goto t pc).threads t = pc :=
  if_pos rfl

theorem goto_other (w : World) {t u : Nat} (pc : Pc) (h : u ≠ t) :
    (w.goto t pc).threads u = w.threads u :=
  if_neg h

theorem goto_goto (w : World) (t : Nat) (a b : Pc) : (w.goto t a).goto t b = w.goto t b := by
  unfold World.goto
  congr 1
  funext u
  by_cases hu : u = t
  · exact (if_pos hu).trans (if_pos hu).symm
  · exact (if_neg hu).trans ((if_neg hu).trans (if_neg hu).symm)

theorem goto_idle {w : World} {t : Nat} (h : w.threads t = .idle) : w.goto t .idle = w := by
  have hthreads : (w.goto t .idle).threads = w.threads := by
    funext u
    by_cases hu : u = t
    · rw [hu, goto_self, h]
    · exact goto_other _ _ hu
  exact show { w with threads := (w.goto t .idle).threads } = w by rw [hthreads]

theorem step_counted (poolSize : Int32) (w : World) (t : Nat) :
    step poolSize (w.goto t .counted) (.advance t) = some (w.goto t (.loaded w.active)) := by
  rw [step, advance, goto_self]
  exact congrArg some (goto_goto w t _ _)

theorem step_loaded (poolSize : Int32) (w : World) (t : Nat) :
    let state := kynxUpdateAdmissionState poolSize w.active w.state
    step poolSize (w.goto t (.loaded w.active)) (.advance t) =
      some (w.goto t (if state = w.state then .idle else .transition state)) := by
  intro state
  rw [step, advance, goto_self]
  exact congrArg some (goto_goto w t _ _)

theorem step_flag (poolSize : Int32) (w : World) (t : Nat) (s : OrbitKynxState) :
    step poolSize (w.goto t (.flag s)) (.advance t) =
      some ({ w with siegeActive := s = OrbitKynxState.siege : World}.goto t .idle) := by
  rw [step, advance, goto_self]
  exact congrArg some (goto_goto { w with siegeActive := s = OrbitKynxState.siege } t _ _)

/-- A thread that has counted a lease, up to the store of the state. -/
theorem stored_run {poolSize : Int32} {w : World} {state : OrbitKynxState} (t : Nat)
    (hstate : kynxUpdateAdmissionState poolSize w.active w.state = state) (h : state ≠ w.state) :
    run poolSize (w.goto t .counted) (List.replicate 4 (.advance t)) =
      some ({ w with state : World}.goto t (.flag state)) := by
  have hloaded := step_loaded poolSize w t
  rw [hstate] at hloaded
  dsimp only at hloaded
  rw [if_neg h] at hloaded
  have htransition : step poolSize (w.goto t (.transition state)) (.advance t) =
      some (w.goto t (.store state)) := by
    rw [step, advance, goto_self]
    exact congrArg some ((congrArg _ (if_pos h.symm)).trans (goto_goto w t _ _))
  have hstore : step poolSize (w.goto t (.store state)) (.advance t) =
      some ({ w with state : World}.goto t (.flag state)) := by
    rw [step, advance, goto_self]
    exact congrArg some (goto_goto { w with state } t _ _)
  rw [List.replicate_succ, run_cons _ (step_counted poolSize w t), List.replicate_succ,
    run_cons _ hloaded, List.replicate_succ, run_cons _ htransition, List.replicate_succ,
    run_cons _ hstore]
  rfl

/-- The same thread, up to the end of its update. -/
theorem counted_run (poolSize : Int32) (w : World) (t : Nat) :
    let state := kynxUpdateAdmissionState poolSize w.active w.state
    run poolSize (w.goto t .counted)
        (List.replicate (if state = w.state then 2 else 5) (.advance t)) =
      some ({ w with
        state
        siegeActive := if state = w.state then w.siegeActive else state = OrbitKynxState.siege
        : World}.goto t .idle) := by
  intro state
  split_ifs with hsame
  · have hloaded := step_loaded poolSize w t
    dsimp only at hloaded
    rw [if_pos hsame] at hloaded
    rw [List.replicate_succ, run_cons _ (step_counted poolSize w t), List.replicate_succ,
      run_cons _ hloaded]
    exact congrArg (fun s => some ({ w with state := s : World}.goto t .idle)) hsame.symm
  · rw [List.replicate_add 4 1, run_append, stored_run t rfl hsame]
    exact (run_cons [] (step_flag poolSize _ t _)).trans rfl

theorem solo_run {poolSize : Int32} {w : World} {t : Nat} (up : Bool) (h : w.threads t = .idle) :
    run poolSize w (solo poolSize w t up) = some (moved poolSize w up) := by
  have hfirst : step poolSize w (if up then .create t else .destroy t) =
      some ({ w with active := w.active + if up then 1 else -1 }.goto t .counted) := by
    cases up
    · exact if_pos h
    · exact if_pos h
  rw [solo, run_cons _ hfirst]
  exact (counted_run poolSize { w with active := w.active + if up then 1 else -1 } t).trans
    (congrArg some (goto_idle h))

/-- **Updates one after another** do what `moved` does in one step. -/
theorem sequential_run {poolSize : Int32} {ops : List (Nat × Bool)} {w : World}
    (h : ∀ op ∈ ops, w.threads op.1 = .idle) : run poolSize w (sequential poolSize w ops) =
      some (ops.foldl (fun w op => moved poolSize w op.2) w) := by
  induction ops generalizing w with
  | nil => rfl
  | cons op ops ih =>
    rw [sequential, run_append, solo_run op.2 (h op List.mem_cons_self)]
    exact ih fun op' hop => h op' (List.mem_cons_of_mem _ hop)

/-- The flag says whether there is a siege. -/
def Flagged (w : World) : Prop :=
  w.siegeActive = true ↔ w.state = .siege

theorem moved_flagged {poolSize : Int32} {w : World} (up : Bool) (h : Flagged w) :
    Flagged (moved poolSize w up) := by
  unfold Flagged moved
  generalize w.active + (if up then 1 else -1) = active
  dsimp only
  split_ifs with hsame
  · rw [hsame]
    exact h
  · exact decide_eq_true_iff

/-- The threads can come to the count and the state of the leases, with no update under way. -/
def Settled (poolSize : Int32) (w : Lease.LeaseWorld) : Prop :=
  ∃ acts v, run poolSize init acts = some v ∧ (∀ t, v.threads t = .idle) ∧ Flagged v ∧
    v.active = w.activeLeases ∧ v.state = w.state

theorem settled_step {poolSize : Int32} {w w' : Lease.LeaseWorld} {act : Lease.LeaseAct}
    (h : Settled poolSize w) (hstep : Lease.leaseStep poolSize w act = some w') :
    Settled poolSize w' := by
  obtain ⟨acts, v, hrun, hidle, hflag, hactive, hstate⟩ := h
  rcases leaseStep_moves hstep with ⟨hc, hs⟩ | ⟨hc, hs⟩
  · exact ⟨acts, v, hrun, hidle, hflag, hactive.trans hc.symm, hstate.trans hs.symm⟩
  · obtain ⟨up, hup⟩ : ∃ up : Bool, v.active + (if up then 1 else -1) = w'.activeLeases := by
      rcases hc with hc | hc
      · exact ⟨true, by rw [hc, hactive]; rfl⟩
      · exact ⟨false, by rw [hc, hactive]; rfl⟩
    refine ⟨acts ++ solo poolSize v 0 up, moved poolSize v up, ?_, hidle, moved_flagged up hflag,
      hup, ?_⟩
    · rw [run_append, hrun]
      exact solo_run up (hidle 0)
    · rw [hs, ← hup, ← hstate]
      rfl

theorem settled_from {poolSize : Int32} (acts : List Lease.LeaseAct) {w : Lease.LeaseWorld}
    (h : Settled poolSize w) : Lease.EveryState poolSize (Settled poolSize) w acts := by
  induction acts generalizing w with
  | nil => exact h
  | cons act acts ih => exact ⟨h, fun w' hstep => ih (settled_step h hstep)⟩

/-- **The leases refine the threads**: the count and the state of every run of the leases are those of
a run of the threads in which every update has come to its end. -/
theorem leases_refine (poolSize : Int32) (acts : List Lease.LeaseAct) :
    Lease.EveryState poolSize (Settled poolSize) Lease.leaseInit acts :=
  settled_from acts ⟨[], init, rfl, fun _ => rfl, ⟨nofun, nofun⟩, rfl, rfl⟩

/-! ## The two stores -/

def Pc.isFlag : Pc → Bool
  | .flag _ => true
  | _ => false

/-- The flag is right, unless a thread is about to store it. -/
def Agree (w : World) : Prop :=
  (∀ t, (w.threads t).isFlag = false) → Flagged w

/-- A store of the state finds no thread between its two stores. -/
def Alone (w : World) : Act → Prop
  | .advance t => ∀ s, w.threads t = .store s → ∀ u, (w.threads u).isFlag = false
  | _ => True

def AloneRun (poolSize : Int32) (w : World) : List Act → Prop
  | [] => True
  | act :: acts =>
    Alone w act ∧ ∀ w', step poolSize w act = some w' → AloneRun poolSize w' acts

structure FlagInv (w : World) : Prop where
  agree : Agree w
  /-- What is about to be stored is what the state says. -/
  current : ∀ t s, w.threads t = .flag s → s = w.state
  single : ∀ t u, (w.threads t).isFlag = true → (w.threads u).isFlag = true → t = u

/-- A thread that is at no flag goes to no flag. -/
theorem FlagInv.goto {w w' : World} {t : Nat} {pc : Pc} (h : FlagInv w)
    (hstate : w'.state = w.state) (hflag : w'.siegeActive = w.siegeActive)
    (hthreads : w'.threads = (w.goto t pc).threads) (hfrom : (w.threads t).isFlag = false)
    (hto : pc.isFlag = false) : FlagInv w' := by
  have hsame : ∀ u, (w'.threads u).isFlag = (w.threads u).isFlag := by
    intro u
    rw [hthreads]
    by_cases hu : u = t
    · rw [hu, goto_self, hto, hfrom]
    · rw [goto_other _ _ hu]
  refine ⟨?_, ?_, ?_⟩
  · intro hno
    rw [Flagged, hstate, hflag]
    exact h.agree fun u => (hsame u).symm.trans (hno u)
  · intro u s hu
    rw [hthreads] at hu
    by_cases hut : u = t
    · rw [hut, goto_self] at hu
      rw [hu] at hto
      exact nomatch hto
    · rw [goto_other _ _ hut] at hu
      rw [hstate]
      exact h.current u s hu
  · intro u v hu hv
    rw [hsame] at hu hv
    exact h.single u v hu hv

theorem flagInv_advance {poolSize : Int32} {w w' : World} {t : Nat} (h : FlagInv w)
    (halone : Alone w (.advance t)) (hstep : advance poolSize w t = some w') : FlagInv w' := by
  unfold advance at hstep
  cases hpc : w.threads t with
  | idle =>
    rw [hpc] at hstep
    exact nomatch hstep
  | counted =>
    rw [hpc] at hstep
    rw [← Option.some.inj hstep]
    exact h.goto rfl rfl rfl (by rw [hpc]; rfl) rfl
  | loaded active =>
    rw [hpc] at hstep
    rw [← Option.some.inj hstep]
    exact h.goto rfl rfl rfl (by rw [hpc]; rfl) (by split <;> rfl)
  | transition s =>
    rw [hpc] at hstep
    rw [← Option.some.inj hstep]
    exact h.goto rfl rfl rfl (by rw [hpc]; rfl) (by split <;> rfl)
  | store s =>
    rw [hpc] at hstep
    rw [← Option.some.inj hstep]
    -- `t` is now the one thread at its flag
    have hnone := halone s hpc
    have honly : ∀ u, ((({ w with state := s } : World).goto t (.flag s)).threads u).isFlag = true →
        u = t := by
      intro u hu
      by_contra hut
      rw [goto_other _ _ hut] at hu
      exact Bool.noConfusion ((hnone u).symm.trans hu)
    refine ⟨?_, ?_, ?_⟩
    · intro hno
      have hself := hno t
      rw [goto_self] at hself
      exact nomatch hself
    · intro u s' hu
      have hut := honly u (by rw [hu]; rfl)
      rw [hut, goto_self] at hu
      exact (Pc.flag.inj hu).symm
    · intro u v hu hv
      rw [honly u hu, honly v hv]
  | flag s =>
    rw [hpc] at hstep
    rw [← Option.some.inj hstep]
    have hs := h.current t s hpc
    have hnone : ∀ u, ((({ w with siegeActive := s = OrbitKynxState.siege } : World).goto t
        .idle).threads u).isFlag = false := by
      intro u
      by_cases hut : u = t
      · rw [hut, goto_self]
        rfl
      · rw [goto_other _ _ hut]
        by_contra hu
        exact hut (h.single u t (Bool.not_eq_false _ ▸ hu) (by rw [hpc]; rfl))
    refine ⟨?_, ?_, ?_⟩
    · intro _
      rw [hs]
      exact decide_eq_true_iff
    · intro u s' hu
      have hfalse := hnone u
      rw [hu] at hfalse
      exact nomatch hfalse
    · intro u v hu
      exact Bool.noConfusion ((hnone u).symm.trans hu)

theorem flagInv_step {poolSize : Int32} {w w' : World} {act : Act} (h : FlagInv w)
    (halone : Alone w act) (hstep : step poolSize w act = some w') : FlagInv w' := by
  unfold step at hstep
  cases act with
  | create t =>
    dsimp only at hstep
    split_ifs at hstep with hidle
    rw [← Option.some.inj hstep]
    exact h.goto rfl rfl rfl (by rw [hidle]; rfl) rfl
  | destroy t =>
    dsimp only at hstep
    split_ifs at hstep with hidle
    rw [← Option.some.inj hstep]
    exact h.goto rfl rfl rfl (by rw [hidle]; rfl) rfl
  | advance t => exact flagInv_advance h halone hstep

theorem flagInv_run {poolSize : Int32} {acts : List Act} {w w' : World} (h : FlagInv w)
    (halone : AloneRun poolSize w acts) (hrun : run poolSize w acts = some w') : FlagInv w' := by
  induction acts generalizing w with
  | nil => exact Option.some.inj hrun ▸ h
  | cons act acts ih =>
    obtain ⟨v, hv, hrest⟩ := Option.bind_eq_some_iff.mp hrun
    exact ih (flagInv_step h halone.1 hv) (halone.2 v hv) hrest

theorem flagInv_init : FlagInv init where
  agree := fun _ => ⟨nofun, nofun⟩
  current := fun _ _ h => nomatch h
  single := fun _ _ h => nomatch h

/-- **The flag follows the state** on a run where no thread stores the state between the two stores
of another. -/
theorem siege_flag_agrees {poolSize : Int32} {acts : List Act} {w : World}
    (halone : AloneRun poolSize init acts) (hrun : run poolSize init acts = some w) : Agree w :=
  (flagInv_run flagInv_init halone hrun).agree

theorem advance_other {poolSize : Int32} {w w' : World} {t u : Nat}
    (h : advance poolSize w t = some w') (hu : u ≠ t) : w'.threads u = w.threads u := by
  unfold advance at h
  split at h
  · cases h
  all_goals
    rw [← Option.some.inj h]
    exact goto_other _ _ hu

/-- The acts of a thread when no other is at work. -/
theorem aloneRun_advances {poolSize : Int32} {t : Nat} (n : Nat) {w : World}
    (h : ∀ u, u ≠ t → w.threads u = .idle) : AloneRun poolSize w (List.replicate n (.advance t)) := by
  induction n generalizing w with
  | zero => exact trivial
  | succ n ih =>
    refine ⟨fun s hs u => ?_, fun w' hstep => ih fun u hu => ?_⟩
    · by_cases hu : u = t
      · rw [hu, hs]
        rfl
      · rw [h u hu]
        rfl
    · rw [advance_other hstep hu, h u hu]

theorem aloneRun_append {poolSize : Int32} {as bs : List Act} {w v : World}
    (h : AloneRun poolSize w as) (hrun : run poolSize w as = some v) (h' : AloneRun poolSize v bs) :
    AloneRun poolSize w (as ++ bs) := by
  induction as generalizing w with
  | nil => exact Option.some.inj hrun ▸ h'
  | cons act as ih =>
    obtain ⟨mid, hmid, hrest⟩ := Option.bind_eq_some_iff.mp hrun
    refine ⟨h.1, fun w' hstep => ?_⟩
    obtain rfl := Option.some.inj (hmid.symm.trans hstep)
    exact ih (h.2 mid hmid) hrest

theorem aloneRun_sequential {poolSize : Int32} (ops : List (Nat × Bool)) {w : World}
    (h : ∀ t, w.threads t = .idle) : AloneRun poolSize w (sequential poolSize w ops) := by
  induction ops generalizing w with
  | nil => exact trivial
  | cons op ops ih =>
    refine aloneRun_append ?_ (solo_run op.2 (h op.1)) (ih h)
    cases hup : op.2 with
    | true =>
      refine ⟨trivial, fun w' hstep => aloneRun_advances _ fun u hu => ?_⟩
      obtain rfl := Option.some.inj ((if_pos (h op.1)).symm.trans hstep)
      exact (goto_other _ _ hu).trans (h u)
    | false =>
      refine ⟨trivial, fun w' hstep => aloneRun_advances _ fun u hu => ?_⟩
      obtain rfl := Option.some.inj ((if_pos (h op.1)).symm.trans hstep)
      exact (goto_other _ _ hu).trans (h u)

/-- A pool of 16 that fills up to a siege and is drained again. -/
def siegeOps : List (Nat × Bool) := List.replicate 17 (0, true) ++ List.replicate 5 (1, false)

theorem siege_flag_agrees_siege :
    ((siegeOps.take 17).foldl (fun w op => moved 16 w op.2) init).state = .siege ∧
      ∃ w, run 16 init (sequential 16 init siegeOps) = some w ∧ w.state = .guarded ∧ Agree w := by
  refine ⟨by decide +kernel, _, sequential_run fun _ _ => rfl, by decide +kernel, ?_⟩
  exact siege_flag_agrees (aloneRun_sequential siegeOps fun _ => rfl) (sequential_run fun _ _ => rfl)

/-! ## A flag left behind -/

/-- The state that a pool comes to as it fills. -/
def tierOf (t : KynxThresholds) (active : Int) : OrbitKynxState :=
  if active ≤ t.shaped then .stable
  else if active ≤ t.guarded then .shaped
  else if active ≤ t.siege then .guarded
  else .siege

theorem tierOf_succ (poolSize : Int32) {active : Int} (h : 0 ≤ active)
    (hroom : active < poolOf poolSize) :
    kynxUpdateAdmissionState poolSize (active + 1) (tierOf (kynxPoolThresholds poolSize) active) =
      tierOf (kynxPoolThresholds poolSize) (active + 1) := by
  obtain ⟨hlow, -⟩ := poolOf_range poolSize
  obtain ⟨hshaped, hguarded, -⟩ := releaseLevels poolSize
  unfold kynxUpdateAdmissionState
  rw [thresholds_eq]
  by_cases h₁ : active ≤ poolOf poolSize / 16
  · rw [tierOf, if_pos h₁]
    simp only [tierOf]
    split_ifs <;> first | rfl | omega
  by_cases h₂ : active ≤ poolOf poolSize / 4
  · rw [tierOf, if_neg h₁, if_pos h₂]
    simp only [tierOf, hshaped]
    split_ifs <;> first | rfl | omega
  · rw [tierOf, if_neg h₁, if_neg h₂, if_pos (Int.le_of_lt hroom)]
    simp only [tierOf, hguarded]
    split_ifs <;> first | rfl | omega

/-- A pool that fills, up to a siege. -/
theorem filled (poolSize : Int32) (n : Nat) (h : (n : Int) ≤ poolOf poolSize) :
    (List.replicate n (0, true)).foldl (fun w (op : Nat × Bool) => moved poolSize w op.2) init =
      { init with active := n, state := tierOf (kynxPoolThresholds poolSize) n } := by
  obtain ⟨hlow, -⟩ := poolOf_range poolSize
  induction n with
  | zero =>
    have hstable : tierOf (kynxPoolThresholds poolSize) (0 : Nat) = .stable := by
      rw [tierOf, thresholds_eq]
      exact if_pos (show ((0 : Nat) : Int) ≤ poolOf poolSize / 16 by omega)
    rw [hstable]
    rfl
  | succ n ih =>
    have hstate : kynxUpdateAdmissionState poolSize ((n : Int) + 1)
        (tierOf (kynxPoolThresholds poolSize) n) =
        tierOf (kynxPoolThresholds poolSize) ((n : Int) + 1) := tierOf_succ poolSize (by omega) (by omega)
    have hnot : tierOf (kynxPoolThresholds poolSize) ((n : Int) + 1) ≠ .siege := by
      rw [tierOf, thresholds_eq]
      split_ifs with h₁ h₂ h₃
      · exact nofun
      · exact nofun
      · exact nofun
      · exact absurd h h₃
    rw [List.replicate_succ', List.foldl_append, ih (by omega)]
    rw [List.foldl_cons, List.foldl_nil, moved]
    simp only [if_true, hstate, hnot, decide_false, Int.natCast_succ]
    congr 1
    exact ite_self _

theorem siege_update {poolSize : Int32} (hsize : poolSize.toInt ≤ 715827882) (active : Int) :
    kynxUpdateAdmissionState poolSize active .siege =
      if active ≤ poolOf poolSize * 3 / 4 then .guarded else .siege := by
  obtain ⟨-, -, hsiege⟩ := releaseLevels poolSize
  unfold kynxUpdateAdmissionState
  rw [thresholds_eq]
  simp only [hsiege hsize]

/-- A siege stays one while the pool is more than three quarters full. -/
theorem drained {poolSize : Int32} (hsize : poolSize.toInt ≤ 715827882) (w : World) (n : Nat)
    (hstate : w.state = .siege) (h : poolOf poolSize * 3 / 4 < w.active - n) :
    (List.replicate n (1, false)).foldl (fun w (op : Nat × Bool) => moved poolSize w op.2) w =
      { w with active := w.active - n } := by
  induction n with
  | zero =>
    exact show w = { w with active := w.active - (0 : Nat) } by
      rw [Int.natCast_zero, Int.sub_zero]
  | succ n ih =>
    have hsiege : kynxUpdateAdmissionState poolSize (w.active - n + -1) .siege = .siege := by
      rw [siege_update hsize]
      exact if_neg (by omega)
    rw [List.replicate_succ', List.foldl_append, ih (by omega), List.foldl_cons, List.foldl_nil,
      moved]
    simp only [Bool.false_eq_true, if_false, hstate, hsiege, if_true]
    congr 1
    omega

/-- A pool that is full, before a siege. -/
def full (poolSize : Int32) : World :=
  { init with active := poolOf poolSize, state := .guarded }

/-- The first thread has begun a siege and stands between its two stores. -/
def stopped (poolSize : Int32) : World :=
  { init with active := poolOf poolSize + 1, state := .siege }.goto 0 (.flag .siege)

/-- It still does, and the siege is over. -/
def ended (poolSize : Int32) : World :=
  { init with active := poolOf poolSize * 3 / 4, state := .guarded }.goto 0 (.flag .siege)

theorem full_run (poolSize : Int32) : ∃ acts, run poolSize init acts = some (full poolSize) := by
  obtain ⟨hlow, -⟩ := poolOf_range poolSize
  have hpool : ((poolOf poolSize).toNat : Int) = poolOf poolSize := Int.toNat_of_nonneg (by omega)
  have hguarded : tierOf (kynxPoolThresholds poolSize) (poolOf poolSize) = .guarded := by
    rw [tierOf, thresholds_eq, if_neg (show ¬ _ ≤ poolOf poolSize / 16 by omega),
      if_neg (show ¬ _ ≤ poolOf poolSize / 4 by omega)]
    exact if_pos (show _ ≤ poolOf poolSize by omega)
  refine ⟨sequential poolSize init (List.replicate (poolOf poolSize).toNat (0, true)), ?_⟩
  rw [sequential_run fun _ _ => rfl, filled poolSize _ (by omega), hpool, hguarded]
  rfl

theorem stopped_run (poolSize : Int32) :
    run poolSize (full poolSize) (.create 0 :: List.replicate 4 (.advance 0)) =
      some (stopped poolSize) := by
  have hsiege : kynxUpdateAdmissionState poolSize (poolOf poolSize + 1) .guarded = .siege := by
    unfold kynxUpdateAdmissionState
    rw [thresholds_eq]
    exact if_pos (show _ > poolOf poolSize by omega)
  have hcreate : step poolSize (full poolSize) (.create 0) =
      some ({ full poolSize with active := poolOf poolSize + 1 }.goto 0 .counted) := rfl
  rw [run_cons _ hcreate]
  exact stored_run 0 hsiege nofun

/-- The second thread takes the pool down. -/
theorem ended_run {poolSize : Int32} (hsize : poolSize.toInt ≤ 715827882) :
    ∃ acts, run poolSize (stopped poolSize) acts = some (ended poolSize) := by
  obtain ⟨hlow, -⟩ := poolOf_range poolSize
  let n := (poolOf poolSize - poolOf poolSize * 3 / 4).toNat
  have hn : (n : Int) = poolOf poolSize - poolOf poolSize * 3 / 4 :=
    Int.toNat_of_nonneg (by omega)
  refine ⟨sequential poolSize (stopped poolSize) (List.replicate (n + 1) (1, false)), ?_⟩
  have hother : ∀ op ∈ List.replicate (n + 1) (1, false),
      (stopped poolSize).threads op.1 = .idle := by
    intro op hop
    rw [List.eq_of_mem_replicate hop]
    rfl
  have hdrained := drained hsize (stopped poolSize) n rfl
    (show _ < poolOf poolSize + 1 - n by omega)
  have hcount : poolOf poolSize + 1 - n + -1 = poolOf poolSize * 3 / 4 := by omega
  have hlast : kynxUpdateAdmissionState poolSize (poolOf poolSize + 1 - n + -1) .siege =
      .guarded := by
    rw [siege_update hsize]
    exact if_pos (by omega)
  rw [sequential_run hother, List.replicate_succ', List.foldl_append, hdrained]
  refine congrArg some ?_
  exact show ({ stopped poolSize with
    active := poolOf poolSize + 1 - n + -1
    state := kynxUpdateAdmissionState poolSize (poolOf poolSize + 1 - n + -1) .siege
    siegeActive :=
      if kynxUpdateAdmissionState poolSize (poolOf poolSize + 1 - n + -1) .siege = .siege then false
      else kynxUpdateAdmissionState poolSize (poolOf poolSize + 1 - n + -1) .siege =
        OrbitKynxState.siege } : World) = ended poolSize by
    rw [hlast, hcount]
    rfl

/-- **A siege can end with the flag set**, for every size of the pool of which three times is an `int`:
a thread stops between its two stores until the siege is over. -/
theorem siege_flag_stuck (poolSize : Int32) (hsize : poolSize.toInt ≤ 715827882) :
    ∃ acts w, run poolSize init acts = some w ∧ (∀ t, w.threads t = .idle) ∧
      w.siegeActive = true ∧ w.state = .guarded := by
  obtain ⟨filling, hfull⟩ := full_run poolSize
  obtain ⟨draining, hended⟩ := ended_run hsize
  let left : World :=
    { init with active := poolOf poolSize * 3 / 4, state := .guarded, siegeActive := true }
  have hlast : step poolSize (ended poolSize) (.advance 0) = some (left.goto 0 .idle) :=
    step_flag poolSize { init with active := poolOf poolSize * 3 / 4, state := .guarded } 0 .siege
  refine ⟨filling ++ ((.create 0 :: List.replicate 4 (.advance 0)) ++ (draining ++ [.advance 0])),
    left, ?_, fun _ => rfl, rfl, rfl⟩
  rw [run_append, hfull, Option.bind_some, run_append, stopped_run, Option.bind_some, run_append,
    hended, Option.bind_some, run_cons _ hlast, goto_idle rfl]
  rfl

theorem siege_flag_stuck_small : ∃ acts w, run 16 init acts = some w ∧
    (∀ t, w.threads t = .idle) ∧ w.siegeActive = true ∧ w.state = .guarded :=
  siege_flag_stuck 16 (by decide)

end Runtime.Admission
