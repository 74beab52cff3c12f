import Orbit.Opt.Proof.SinkLoop

/-!
# The sweep against a rescan

`PlainMotion` is the rescan that the comments of `compiler/ir/optimizer.orb` compare the sweep with.
The sweep is after less: `SinkMotion` asks in addition for one definition, of a movable constant, and
for a use that is not right behind it. `sinkMotions` are the motions that the tests of the sweep let
through, of which `sinkOne` returns the first; they are the `SinkMotion`s of the list, in every round
(`sweep_selects`).
-/

namespace Opt

open IR

/-! ## What the sweep looks for -/

/-- A `loadConst` at `d` whose register has one use, at `u` later in the list, the region between
clear. -/
structure PlainMotion (f : IRFunction) (d u : Nat) : Prop where
  const : ∃ D U, f.instructions[d]? = some D ∧ f.instructions[u]? = some U ∧
    D.opcode = .loadConst ∧ .register D.dest ∈ U.operands ∧
    (f.instructions.map (useCount D.dest)).sum = 1
  later : d < u
  clear : regionClear f d u = true

/-- A movable constant at `d`, the only definition of a register with one use, at `u` later in the
list but not right behind it, the region between clear. -/
structure SinkMotion (f : IRFunction) (d u : Nat) : Prop where
  const : ∃ D U, f.instructions[d]? = some D ∧ f.instructions[u]? = some U ∧
    .register D.dest ∈ U.operands ∧ Sinkable f.instructions D.dest
  apart : d + 1 < u
  clear : regionClear f d u = true

/-! ## What its tests let through -/

/-- The motion an operand proves, as the pair its code is built from. -/
def provedMotion (useIdx : Nat) (op : IRValue) (qual lastDef : List Int) (lastBar : Int) :
    List (Nat × Nat) :=
  if 0 ≤ sinkTryOperand useIdx op qual lastDef lastBar then
    [((sinkGetInt lastDef (sinkRegSlot op)).toNat, useIdx)]
  else []

/-- The motions of the sweep from position `ui` on, if it went on behind the first. -/
def sweepMotions (qual : List Int) : List IRInstruction → Nat → List Int → Int → List (Nat × Nat)
  | [], _, _, _ => []
  | ins :: rest, ui, lastDef, lastBar =>
    let lastDef := setSlot lastDef ins.dest ui
    provedMotion ui ins.operand1 qual lastDef lastBar ++
      (provedMotion ui ins.operand2 qual lastDef lastBar ++
        (provedMotion ui ins.operand3 qual lastDef lastBar ++
          sweepMotions qual rest (ui + 1) lastDef
            (if isBarrierOp ins.opcode then ui else lastBar)))

def sinkMotions (f : IRFunction) (qual : List Int) : List (Nat × Nat) :=
  sweepMotions qual f.instructions 0 (List.replicate qual.length (-1)) (-1)

/-- The code of a motion. -/
def motionCode (m : Nat × Nat) : Int := m.2 * 65536 + m.1

/-- The code of the first motion, or `-1`. -/
def firstCode (ms : List (Nat × Nat)) : Int := (ms.head?.map motionCode).getD (-1)

theorem firstCode_proved {ui : Nat} {op : IRValue} {qual lastDef : List Int} {lastBar : Int}
    {ms : List (Nat × Nat)} :
    firstCode (provedMotion ui op qual lastDef lastBar ++ ms) =
      if 0 ≤ sinkTryOperand ui op qual lastDef lastBar then
        sinkTryOperand ui op qual lastDef lastBar
      else firstCode ms := by
  unfold provedMotion
  split
  · rename_i h
    obtain ⟨r, d, rfl, hr, -, -, hd, h0, -, -, hres⟩ := sinkTryOperand_spec h
    simp only [List.singleton_append, firstCode, List.head?_cons, Option.map_some, Option.getD_some,
      motionCode, hres, sinkRegSlot, ← hd]
    omega
  · rw [List.nil_append]

/-- **The sweep returns the first of its motions.** -/
theorem sinkSweep_eq (qual : List Int) (rest : List IRInstruction) (ui : Nat) (lastDef : List Int)
    (lastBar : Int) :
    sinkSweep qual rest ui lastDef lastBar =
      firstCode (sweepMotions qual rest ui lastDef lastBar) := by
  induction rest generalizing ui lastDef lastBar with
  | nil => rfl
  | cons i rest ih =>
    simp only [sinkSweep, sweepMotions, firstCode_proved]
    rw [← ih, Nat.cast_add, Nat.cast_one]

theorem sinkOne_eq (f : IRFunction) (qual : List Int) :
    sinkOne f qual = firstCode (sinkMotions f qual) :=
  sinkSweep_eq qual f.instructions 0 _ _

/-! ## The last position -/

/-- The last position before `n` of an instruction that satisfies `p`, or `-1`. -/
def lastIdx (p : IRInstruction → Bool) (is : List IRInstruction) : Nat → Int
  | 0 => -1
  | n + 1 => if is[n]?.any p then n else lastIdx p is n

/-- What stands at the last position. -/
theorem lastIdx_spec {p : IRInstruction → Bool} {is : List IRInstruction} {n : Nat}
    (h : 0 ≤ lastIdx p is n) : ∃ i, is[(lastIdx p is n).toNat]? = some i ∧ p i = true := by
  induction n with
  | zero => simp [lastIdx] at h
  | succ n ih =>
    simp only [lastIdx] at h ⊢
    split
    · rename_i hp
      obtain ⟨i, hi, hpi⟩ := (Option.any_eq_true _ _).mp hp
      exact ⟨i, by simpa using hi, hpi⟩
    · rename_i hp
      rw [if_neg hp] at h
      exact ih h

/-- Behind the last position nothing satisfies `p`. -/
theorem lastIdx_lt_iff {p : IRInstruction → Bool} {is : List IRInstruction} {n d : Nat} :
    lastIdx p is n < d ↔ ∀ k i, d ≤ k → k < n → is[k]? = some i → p i = false := by
  induction n with
  | zero =>
    simp only [lastIdx]
    constructor
    · intro _ k i _ hk
      omega
    · intro _
      omega
  | succ n ih =>
    simp only [lastIdx]
    split
    · rename_i hp
      obtain ⟨i, hi, hpi⟩ := (Option.any_eq_true _ _).mp hp
      constructor
      · intro hlt k _ hk hkn
        omega
      · intro h
        by_contra hd
        exact absurd hpi (by simp [h n i (by omega) (by omega) hi])
    · rename_i hp
      rw [ih]
      constructor
      · intro h k i hd hk hi
        rcases Nat.lt_or_eq_of_le (Nat.le_of_lt_succ hk) with hlt | rfl
        · exact h k i hd hlt hi
        · simpa [hi] using hp
      · intro h k i hd hk hi
        exact h k i hd (by omega) hi

/-- A position with `p`, and none behind it. -/
theorem lastIdx_eq {p : IRInstruction → Bool} {is : List IRInstruction} {n d : Nat}
    {i : IRInstruction} (hd : d < n) (hi : is[d]? = some i) (hp : p i = true)
    (hlast : ∀ k j, d < k → k < n → is[k]? = some j → p j = false) : lastIdx p is n = d := by
  have hup : lastIdx p is n < (d + 1 : Nat) := lastIdx_lt_iff.mpr fun k j hk => hlast k j hk
  have hlow : ¬lastIdx p is n < d := fun h => by
    have := lastIdx_lt_iff.mp h d i (Nat.le_refl d) hd hi
    simp [hp] at this
  omega

/-! ## What the sweep knows -/

/-- The tables of the sweep before position `ui`, with the definitions before `ud`. -/
structure SweepExact (is : List IRInstruction) (qual : List Int) (ud ui : Nat) (lastDef : List Int)
    (lastBar : Int) : Prop where
  size : lastDef.length = qual.length
  defs : ∀ r : Int, 0 ≤ r → r < qual.length →
    sinkGetInt lastDef r = lastIdx (fun i => i.dest == r) is ud
  bars : lastBar = lastIdx (fun i => isBarrierOp i.opcode) is ui

section
variable {is : List IRInstruction} {qual lastDef : List Int} {ui : Nat} {lastBar : Int}
  {i : IRInstruction}

theorem SweepExact.defined (h : SweepExact is qual ui ui lastDef lastBar) (hi : is[ui]? = some i) :
    SweepExact is qual (ui + 1) ui (setSlot lastDef i.dest ui) lastBar where
  size := by rw [length_setSlot, h.size]
  defs := by
    intro r hr hlen
    rw [sinkGetInt_setSlot hr (by rw [h.size]; exact hlen), h.defs r hr hlen]
    simp only [lastIdx, hi, Option.any_some, beq_iff_eq]
  bars := h.bars

theorem SweepExact.passed (h : SweepExact is qual (ui + 1) ui lastDef lastBar)
    (hi : is[ui]? = some i) :
    SweepExact is qual (ui + 1) (ui + 1) lastDef (if isBarrierOp i.opcode then (ui : Int) else lastBar)
    where
  size := h.size
  defs := h.defs
  bars := by simp only [lastIdx, hi, Option.any_some, h.bars]

end

/-- What the test of one operand asks for. -/
theorem mem_provedMotion {is : List IRInstruction} {qual lastDef : List Int} {ui : Nat}
    {lastBar : Int} {op : IRValue} (h : SweepExact is qual (ui + 1) ui lastDef lastBar)
    {d u : Nat} :
    (d, u) ∈ provedMotion ui op qual lastDef lastBar ↔
      u = ui ∧ ∃ r, op = .register r ∧ 0 ≤ r ∧ r < qual.length ∧ sinkGetInt qual r = 1 ∧
        lastIdx (fun i => i.dest == r) is (u + 1) = d ∧ d + 1 < u ∧
        lastIdx (fun i => isBarrierOp i.opcode) is u < d := by
  constructor
  · intro hm
    unfold provedMotion at hm
    split at hm
    · rename_i hpos
      obtain ⟨r, e, rfl, hr, hlen, hq, he, he0, heu, hbar, -⟩ := sinkTryOperand_spec hpos
      simp only [List.mem_singleton, Prod.mk.injEq, sinkRegSlot, ← he] at hm
      obtain ⟨rfl, rfl⟩ := hm
      rw [h.defs r hr hlen] at he
      rw [h.bars] at hbar
      exact ⟨rfl, r, rfl, hr, hlen, hq, by omega, by omega, by omega⟩
    · simp at hm
  · rintro ⟨rfl, r, rfl, hr, hlen, hq, hd, hdu, hbar⟩
    have hdef := h.defs r hr hlen
    have hcode : sinkTryOperand u (.register r) qual lastDef lastBar = u * 65536 + d := by
      simp only [sinkTryOperand, sinkRegSlot, hdef, hd, h.bars]
      rw [if_neg (by omega), if_neg (by omega), if_neg (by omega), if_neg (by omega),
        if_neg (by omega), if_neg (by omega), if_neg (by omega)]
    unfold provedMotion
    rw [if_pos (by rw [hcode]; omega)]
    simp only [sinkRegSlot, hdef, hd, Int.toNat_natCast, List.mem_singleton]

/-- The tests of the sweep from position `ui` on, at every later position. -/
theorem mem_sweepMotions {is : List IRInstruction} {qual : List Int} (rest : List IRInstruction)
    (ui : Nat) (lastDef : List Int) (lastBar : Int) (hrest : is.drop ui = rest)
    (hinv : SweepExact is qual ui ui lastDef lastBar) {d u : Nat} :
    (d, u) ∈ sweepMotions qual rest ui lastDef lastBar ↔
      ui ≤ u ∧ ∃ (U : IRInstruction) (r : Int), is[u]? = some U ∧ .register r ∈ U.operands ∧ 0 ≤ r ∧
        r < qual.length ∧ sinkGetInt qual r = 1 ∧ lastIdx (fun i => i.dest == r) is (u + 1) = d ∧
        d + 1 < u ∧ lastIdx (fun i => isBarrierOp i.opcode) is u < d := by
  induction rest generalizing ui lastDef lastBar with
  | nil =>
    have hlen : is.length ≤ ui := List.drop_eq_nil_iff.mp hrest
    constructor
    · intro h
      simp [sweepMotions] at h
    · rintro ⟨hu, U, r, hU, -⟩
      have := (List.getElem?_eq_some_iff.mp hU).1
      omega
  | cons i rest ih =>
    have hi : is[ui]? = some i := by
      have := congrArg (·[0]?) hrest
      simpa using this
    have hdrop : is.drop (ui + 1) = rest := by
      rw [← List.drop_drop, hrest]
      rfl
    have hdef := hinv.defined hi
    have hnext := ih (ui + 1) _ _ hdrop (hdef.passed hi)
    simp only [sweepMotions, List.mem_append, mem_provedMotion hdef, hnext]
    constructor
    · rintro (⟨rfl, r, ho, h⟩ | ⟨rfl, r, ho, h⟩ | ⟨rfl, r, ho, h⟩ | ⟨hu, h⟩)
      · exact ⟨Nat.le_refl _, i, r, hi, by simp [IRInstruction.operands, ho], h⟩
      · exact ⟨Nat.le_refl _, i, r, hi, by simp [IRInstruction.operands, ho], h⟩
      · exact ⟨Nat.le_refl _, i, r, hi, by simp [IRInstruction.operands, ho], h⟩
      · exact ⟨by omega, h⟩
    · rintro ⟨hu, U, r, hU, ho, h⟩
      rcases Nat.eq_or_lt_of_le hu with rfl | hlt
      · obtain rfl : U = i := Option.some.inj (hU.symm.trans hi)
        simp only [IRInstruction.operands, List.mem_cons, List.not_mem_nil, or_false] at ho
        rcases ho with ho | ho | ho
        · exact .inl ⟨rfl, r, ho.symm, h⟩
        · exact .inr (.inl ⟨rfl, r, ho.symm, h⟩)
        · exact .inr (.inr (.inl ⟨rfl, r, ho.symm, h⟩))
      · exact .inr (.inr (.inr ⟨hlt, U, r, hU, ho, h⟩))

theorem sweepExact_start (is : List IRInstruction) (qual : List Int) :
    SweepExact is qual 0 0 (List.replicate qual.length (-1)) (-1) where
  size := List.length_replicate
  defs := by
    intro r hr hlen
    rw [sinkGetInt, if_neg (Int.not_lt.mpr hr), List.getD_eq_getElem?_getD,
      List.getElem?_replicate, if_pos (by omega)]
    rfl
  bars := rfl

/-! ## The registers that qualify -/

theorem slots_ge (is : List IRInstruction) (m : Int) :
    m ≤ is.foldl (fun m i => max (max (max (max m i.dest) (sinkRegSlot i.operand1))
      (sinkRegSlot i.operand2)) (sinkRegSlot i.operand3)) m := by
  induction is generalizing m with
  | nil => exact Int.le_refl m
  | cons i is ih =>
    rw [List.foldl_cons]
    exact le_trans (by omega) (ih _)

/-- Every destination has a slot. -/
theorem dest_slot {is : List IRInstruction} {i : IRInstruction} (hi : i ∈ is) (m : Int) :
    i.dest ≤ is.foldl (fun m i => max (max (max (max m i.dest) (sinkRegSlot i.operand1))
      (sinkRegSlot i.operand2)) (sinkRegSlot i.operand3)) m := by
  induction is generalizing m with
  | nil => simp at hi
  | cons j is ih =>
    rw [List.foldl_cons]
    rcases List.mem_cons.mp hi with rfl | hi
    · exact le_trans (by omega) (slots_ge is _)
    · exact ih hi _

theorem dest_lt_slotCount {f : IRFunction} {i : IRInstruction} (hi : i ∈ f.instructions) :
    i.dest < sinkSlotCount f := by
  have := dest_slot hi (-1)
  unfold sinkSlotCount
  omega

section
variable {r : Int} {n : Nat} (hr : 0 ≤ r) (hn : r < n)
include hr hn

theorem movable_kept (i : IRInstruction) (t : SinkTables) (h : t.Sized n)
    (h1 : sinkGetInt t.movable r = 1) : sinkGetInt (t.tally i).movable r = 1 := by
  simp only [SinkTables.tally]
  split
  · rw [sinkGetInt_setSlot hr (by rw [h.mov]; exact hn), h1]
    split <;> rfl
  · exact h1

theorem tally_movable_of_mem (is : List IRInstruction) (t : SinkTables) (h : t.Sized n)
    (hm : sinkGetInt t.movable r = 1 ∨
      ∃ i ∈ is, i.dest = r ∧ i.opcode = .loadConst ∧ isMovableConst i.operand1 = true) :
    sinkGetInt (is.foldl SinkTables.tally t).movable r = 1 := by
  induction is generalizing t with
  | nil =>
    rcases hm with hm | ⟨i, hi, -⟩
    · exact hm
    · simp at hi
  | cons i is ih =>
    refine ih _ (h.tally i) ?_
    rcases hm with hm | ⟨j, hj, hd, hop, hc⟩
    · exact .inl (movable_kept hr hn i t h hm)
    · rcases List.mem_cons.mp hj with rfl | hj
      · left
        simp only [SinkTables.tally, hop, hc, and_self, if_true]
        rw [sinkGetInt_setSlot hr (by rw [h.mov]; exact hn), if_pos hd]
      · exact .inr ⟨j, hj, hd, hop, hc⟩

end

/-- **The registers that qualify are the sinkable ones.** -/
theorem qual_iff {f : IRFunction} {r : Int} :
    sinkGetInt (sinkBuildQual f (sinkSlotCount f)) r = 1 ↔ Sinkable f.instructions r := by
  refine ⟨qual_sinkable, fun h => ?_⟩
  have hr := h.nonneg
  obtain ⟨i, hi, hd, -⟩ := h.movable
  have hlt := dest_lt_slotCount hi
  rw [hd] at hlt
  have hn : r < ((sinkSlotCount f).toNat : Int) := by omega
  have hinit : (SinkTables.init (sinkSlotCount f)).Sized (sinkSlotCount f).toNat := by
    constructor <;> simp [SinkTables.init]
  have hzero : ∀ k : Int, sinkGetInt (List.replicate (sinkSlotCount f).toNat 0) k = 0 :=
    sinkGetInt_zeros _
  have hdefs := tally_defs hr hn f.instructions _ hinit
  have huses := tally_uses hr hn f.instructions _ hinit
  have hmov := tally_movable_of_mem hr hn f.instructions _ hinit (.inr h.movable)
  rw [h.defs] at hdefs
  rw [h.uses] at huses
  simp only [SinkTables.init, hzero] at hdefs huses
  rw [sinkGetInt, if_neg (Int.not_lt.mpr hr), sinkBuildQual, List.getD_eq_getElem?_getD,
    List.getElem?_map, List.getElem?_range (show r.toNat < (sinkSlotCount f).toNat by omega)]
  simp only [Option.map_some, Option.getD_some, Int.toNat_of_nonneg hr]
  exact if_pos ⟨hdefs, huses, hmov⟩

theorem qual_length (f : IRFunction) (slots : Int) :
    (sinkBuildQual f slots).length = slots.toNat := by simp [sinkBuildQual]

theorem regionClear_iff {f : IRFunction} {a b : Nat} :
    regionClear f a b = true ↔
      ∀ k i, a ≤ k → k < b → f.instructions[k]? = some i → isBarrierOp i.opcode = false := by
  constructor
  · intro h k i ha hb hi
    simpa using all_region h ha hb hi
  · intro h
    refine List.all_eq_true.mpr fun i hi => ?_
    obtain ⟨j, hj⟩ := List.mem_iff_getElem?.mp hi
    rw [List.getElem?_drop, List.getElem?_take] at hj
    split at hj
    · simpa using h _ i (by omega) (by omega) hj
    · cases hj

theorem countP_one_last {α : Type} {p : α → Bool} {is : List α} {d k : Nat} {x y : α}
    (h : is.countP p = 1) (hd : is[d]? = some x) (hx : p x = true) (hk : is[k]? = some y)
    (hlt : d < k) : p y = false := by
  obtain ⟨hdl, rfl⟩ := List.getElem?_eq_some_iff.mp hd
  have hsplit : is = is.take d ++ is[d] :: is.drop (d + 1) := by
    rw [List.getElem_cons_drop, List.take_append_drop]
  rw [hsplit] at h
  refine countP_one_split h hx y (List.mem_of_getElem? (i := k - (d + 1)) ?_)
  rw [List.getElem?_drop, show d + 1 + (k - (d + 1)) = k by omega, hk]

/-- Only one position defines a sinkable register. -/
theorem Sinkable.unique {is : List IRInstruction} {r : Int} (h : Sinkable is r) {d k : Nat}
    {D K : IRInstruction} (hD : is[d]? = some D) (hK : is[k]? = some K) (hd : D.dest = r)
    (hk : K.dest = r) : d = k := by
  rcases Nat.lt_trichotomy d k with hlt | heq | hlt
  · have := countP_one_last h.defs hD (by simpa using hd) hK hlt
    simp [hk] at this
  · exact heq
  · have := countP_one_last h.defs hK (by simpa using hk) hD hlt
    simp [hd] at this

/-- The motions that the tests let through, in a list that a round makes. -/
theorem mem_sinkMotions (f g : IRFunction) (hp : g.instructions.Perm f.instructions) (d u : Nat) :
    (d, u) ∈ sinkMotions g (sinkBuildQual f (sinkSlotCount f)) ↔ SinkMotion g d u := by
  have hqual : ∀ r, sinkGetInt (sinkBuildQual f (sinkSlotCount f)) r = 1 ↔
      Sinkable g.instructions r := fun r =>
    qual_iff.trans ⟨fun h => h.perm hp.symm, fun h => h.perm hp⟩
  unfold sinkMotions
  rw [mem_sweepMotions g.instructions 0 _ _ rfl (sweepExact_start _ _)]
  constructor
  · rintro ⟨-, U, r, hU, ho, hr, -, hq, hd, hdu, hbar⟩
    obtain ⟨D, hD, hdest⟩ := lastIdx_spec
      (show 0 ≤ lastIdx (fun i => i.dest == r) g.instructions (u + 1) by omega)
    rw [hd, Int.toNat_natCast] at hD
    have hdest : D.dest = r := by simpa using hdest
    refine ⟨⟨D, U, hD, hU, hdest ▸ ho, hdest ▸ (hqual r).mp hq⟩, hdu, ?_⟩
    exact regionClear_iff.mpr fun k i hk hku hi => lastIdx_lt_iff.mp hbar k i hk hku hi
  · rintro ⟨⟨D, U, hD, hU, ho, hs⟩, hdu, hclear⟩
    have hlt := dest_lt_slotCount (hp.mem_iff.mp (List.mem_of_getElem? hD))
    refine ⟨Nat.zero_le u, U, D.dest, hU, ho, hs.nonneg, ?_, (hqual _).mpr hs, ?_, hdu, ?_⟩
    · have := hs.nonneg
      rw [qual_length]
      omega
    · refine lastIdx_eq (by omega) hD (by simp) fun k j hdk _ hj => ?_
      by_contra hk
      have := hs.unique hD hj rfl (by simpa using hk)
      omega
    · exact lastIdx_lt_iff.mpr fun k i hk hku hi => regionClear_iff.mp hclear k i hk hku hi

/-- **The tests of the sweep let through what the sweep is after**, in the list itself and in every
list a round makes of it. -/
theorem sweep_selects (f g : IRFunction) (hp : g.instructions.Perm f.instructions) :
    (∀ d u, (d, u) ∈ sinkMotions g (sinkBuildQual f (sinkSlotCount f)) ↔ SinkMotion g d u) ∧
    sinkOne g (sinkBuildQual f (sinkSlotCount f)) =
      firstCode (sinkMotions g (sinkBuildQual f (sinkSlotCount f))) :=
  ⟨mem_sinkMotions f g hp, sinkOne_eq g _⟩

/-! ## The first motion -/

/-- The constant at `d` has its only use at `u`, later in the list, the region between clear. -/
structure Reaches (is : List IRInstruction) (d u : Nat) : Prop where
  later : d < u
  use : ∃ D U, is[d]? = some D ∧ is[u]? = some U ∧ .register D.dest ∈ U.operands ∧
    Sinkable is D.dest
  clear : ∀ k i, d ≤ k → k < u → is[k]? = some i → isBarrierOp i.opcode = false

instance (is : List IRInstruction) (r : Int) : Decidable (Sinkable is r) :=
  decidable_of_iff (0 ≤ r ∧ is.countP (fun i => i.dest == r) = 1 ∧
      (is.map (useCount r)).sum = 1 ∧
      ∃ i ∈ is, i.dest = r ∧ i.opcode = .loadConst ∧ isMovableConst i.operand1 = true)
    ⟨fun h => ⟨h.1, h.2.1, h.2.2.1, h.2.2.2⟩, fun h => ⟨h.nonneg, h.defs, h.uses, h.movable⟩⟩

theorem reaches_iff {is : List IRInstruction} {d u : Nat} :
    (d < u ∧ (∃ D ∈ is[d]?, ∃ U ∈ is[u]?, .register D.dest ∈ U.operands ∧ Sinkable is D.dest) ∧
      ((is.take u).drop d).all (fun i => !isBarrierOp i.opcode) = true) ↔ Reaches is d u := by
  have hclear := regionClear_iff (f := { initIRFunction "" with instructions := is }) (a := d) (b := u)
  constructor
  · rintro ⟨hlt, ⟨D, hD, U, hU, ho, hs⟩, hall⟩
    exact ⟨hlt, ⟨D, U, hD, hU, ho, hs⟩, hclear.mp hall⟩
  · rintro ⟨hlt, ⟨D, U, hD, hU, ho, hs⟩, hall⟩
    exact ⟨hlt, ⟨D, hD, U, hU, ho, hs⟩, hclear.mpr hall⟩

instance (is : List IRInstruction) : DecidableRel (Reaches is) := fun _ _ =>
  decidable_of_iff _ reaches_iff

theorem sinkMotion_iff {f : IRFunction} {d u : Nat} :
    SinkMotion f d u ↔ Reaches f.instructions d u ∧ d + 1 < u := by
  constructor
  · intro h
    have hapart := h.apart
    exact ⟨⟨by omega, h.const, regionClear_iff.mp h.clear⟩, hapart⟩
  · rintro ⟨h, hapart⟩
    exact ⟨h.use, hapart, regionClear_iff.mpr h.clear⟩

/-- The register that the instruction at `d` writes. -/
def destAt (is : List IRInstruction) (d : Nat) : Int := (is[d]?.map IRInstruction.dest).getD (-1)

/-- Which operand of the instruction at `u` the constant at `d` is. -/
def operandIdx (is : List IRInstruction) (d u : Nat) : Nat :=
  ((is[u]?.map IRInstruction.operands).getD []).idxOf (.register (destAt is d))

/-- The motion that the sweep takes at the use `u`: of its operands with a motion the first. -/
structure Taken (is : List IRInstruction) (d u : Nat) : Prop where
  reaches : Reaches is d u
  apart : d + 1 < u
  leftmost : ∀ c, Reaches is c u → c + 1 < u → operandIdx is d u ≤ operandIdx is c u

/-- A use has a motion that is taken when it has a motion. -/
theorem exists_taken {is : List IRInstruction} {a u : Nat} (h : Reaches is a u) (hgap : a + 1 < u) :
    ∃ c, Taken is c u := by
  induction hn : operandIdx is a u using Nat.strong_induction_on generalizing a with
  | h n ih =>
    by_cases hleft : ∀ c, Reaches is c u → c + 1 < u → operandIdx is a u ≤ operandIdx is c u
    · exact ⟨a, h, hgap, hleft⟩
    · push Not at hleft
      obtain ⟨c, hc, hcgap, hlt⟩ := hleft
      exact ih _ (hn ▸ hlt) hc hcgap rfl

theorem destAt_eq {is : List IRInstruction} {d : Nat} {D : IRInstruction} (h : is[d]? = some D) :
    destAt is d = D.dest := by
  rw [destAt, h]
  rfl

theorem operandIdx_eq {is : List IRInstruction} {d u : Nat} {D U : IRInstruction}
    (hD : is[d]? = some D) (hU : is[u]? = some U) :
    operandIdx is d u = U.operands.idxOf (.register D.dest) := by
  rw [operandIdx, destAt_eq hD, hU]
  rfl

/-- One use has one motion that is taken. -/
theorem Taken.unique {is : List IRInstruction} {a b u : Nat} (ha : Taken is a u)
    (hb : Taken is b u) : a = b := by
  obtain ⟨A, U, hA, hU, hAU, hs⟩ := ha.reaches.use
  obtain ⟨B, V, hB, hV, hBV, -⟩ := hb.reaches.use
  obtain rfl := Option.some.inj (hU.symm.trans hV)
  have hidx := Nat.le_antisymm (ha.leftmost b hb.reaches hb.apart)
    (hb.leftmost a ha.reaches ha.apart)
  rw [operandIdx_eq hA hU, operandIdx_eq hB hU] at hidx
  have hreg := (List.idxOf_inj hAU).mp hidx
  exact hs.unique hA hB rfl (IRValue.register.inj hreg).symm

/-- Where the tests of some operands find their first motion. -/
theorem head_operand {is : List IRInstruction} {qual lastDef : List Int} {ui : Nat} {lastBar : Int}
    (hinv : SweepExact is qual (ui + 1) ui lastDef lastBar) (ops : List IRValue) {d u : Nat}
    (hhead : (ops.flatMap fun o => provedMotion ui o qual lastDef lastBar).head? = some (d, u))
    {a b : Nat} (hmem : (a, b) ∈ ops.flatMap fun o => provedMotion ui o qual lastDef lastBar) :
    ops.idxOf (.register (destAt is d)) ≤ ops.idxOf (.register (destAt is a)) := by
  have hreg : ∀ o k v, (k, v) ∈ provedMotion ui o qual lastDef lastBar →
      o = .register (destAt is k) := by
    intro o k v h
    obtain ⟨rfl, r, rfl, -, -, -, hlast, -⟩ := (mem_provedMotion hinv).mp h
    obtain ⟨K, hK, hdest⟩ := lastIdx_spec (by rw [hlast]; exact Int.natCast_nonneg k)
    rw [hlast, Int.toNat_natCast] at hK
    rw [destAt_eq hK]
    exact congrArg _ (beq_iff_eq.mp hdest).symm
  induction ops with
  | nil => simp at hmem
  | cons o ops ih =>
    rw [List.flatMap_cons] at hhead hmem
    cases hpm : provedMotion ui o qual lastDef lastBar with
    | nil =>
      rw [hpm, List.nil_append] at hhead hmem
      have hne : ∀ k v, (k, v) ∈ (ops.flatMap fun o => provedMotion ui o qual lastDef lastBar) →
          o ≠ .register (destAt is k) := by
        rintro k v hk rfl
        obtain ⟨o', -, ho'⟩ := List.mem_flatMap.mp hk
        rw [hreg o' k v ho'] at ho'
        rw [hpm] at ho'
        exact absurd ho' List.not_mem_nil
      rw [List.idxOf_cons_ne _ (hne d u (List.mem_of_mem_head? hhead)),
        List.idxOf_cons_ne _ (hne a b hmem)]
      exact Nat.succ_le_succ (ih hhead hmem)
    | cons m ms =>
      rw [hpm, List.cons_append, List.head?_cons, Option.some.injEq] at hhead
      rw [hreg o d u (by rw [hpm, hhead]; exact List.mem_cons_self), List.idxOf_cons_self]
      exact Nat.zero_le _

/-- The first motion of the sweep, from a position on. -/
theorem head_sweep {is : List IRInstruction} {qual : List Int} (rest : List IRInstruction)
    (ui : Nat) (lastDef : List Int) (lastBar : Int) (hrest : is.drop ui = rest)
    (hinv : SweepExact is qual ui ui lastDef lastBar) {d u : Nat}
    (hhead : (sweepMotions qual rest ui lastDef lastBar).head? = some (d, u)) {a b : Nat}
    (hmem : (a, b) ∈ sweepMotions qual rest ui lastDef lastBar) :
    u < b ∨ u = b ∧ operandIdx is d u ≤ operandIdx is a b := by
  induction rest generalizing ui lastDef lastBar with
  | nil => simp [sweepMotions] at hmem
  | cons i rest ih =>
    have hi : is[ui]? = some i := by
      have := congrArg (·[0]?) hrest
      simpa using this
    have hdrop : is.drop (ui + 1) = rest := by
      rw [← List.drop_drop, hrest]
      rfl
    have hdef := hinv.defined hi
    have hpass := hdef.passed hi
    have hsplit : sweepMotions qual (i :: rest) ui lastDef lastBar =
        (i.operands.flatMap fun o => provedMotion ui o qual (setSlot lastDef i.dest ui) lastBar) ++
          sweepMotions qual rest (ui + 1) (setSlot lastDef i.dest ui)
            (if isBarrierOp i.opcode then (ui : Int) else lastBar) := by
      simp [sweepMotions, IRInstruction.operands, List.append_assoc]
    have hat : ∀ k v, (k, v) ∈
        (i.operands.flatMap fun o => provedMotion ui o qual (setSlot lastDef i.dest ui) lastBar) →
        v = ui := by
      intro k v h
      obtain ⟨o, -, ho⟩ := List.mem_flatMap.mp h
      exact ((mem_provedMotion hdef).mp ho).1
    have hlater : ∀ k v, (k, v) ∈ sweepMotions qual rest (ui + 1) (setSlot lastDef i.dest ui)
        (if isBarrierOp i.opcode then (ui : Int) else lastBar) → ui < v := by
      intro k v h
      exact ((mem_sweepMotions rest (ui + 1) _ _ hdrop hpass).mp h).1
    rw [hsplit] at hhead hmem
    cases hops : (i.operands.flatMap fun o =>
        provedMotion ui o qual (setSlot lastDef i.dest ui) lastBar) with
    | nil =>
      rw [hops, List.nil_append] at hhead hmem
      exact ih (ui + 1) _ _ hdrop hpass hhead hmem
    | cons m ms =>
      have hhead' : (i.operands.flatMap fun o => provedMotion ui o qual (setSlot lastDef i.dest ui)
          lastBar).head? = some (d, u) := by
        rw [hops, List.cons_append, List.head?_cons] at hhead
        rw [hops, List.head?_cons, hhead]
      obtain rfl := hat d u (List.mem_of_mem_head? hhead')
      rcases List.mem_append.mp hmem with hmem | hmem
      · obtain rfl := hat a b hmem
        refine .inr ⟨rfl, ?_⟩
        have := head_operand hdef i.operands hhead' hmem
        simpa only [operandIdx, hi, Option.map_some, Option.getD_some] using this
      · exact .inl (hlater a b hmem)

/-- The first motion is the one taken at the first use that has a motion. -/
theorem head_taken {f g : IRFunction} (hp : g.instructions.Perm f.instructions) {d u : Nat}
    (hhead : (sinkMotions g (sinkBuildQual f (sinkSlotCount f))).head? = some (d, u)) :
    Taken g.instructions d u ∧ ∀ a b, Reaches g.instructions a b → a + 1 < b → u ≤ b := by
  have hsel := mem_sinkMotions f g hp
  have hmotion := sinkMotion_iff.mp ((hsel d u).mp (List.mem_of_mem_head? hhead))
  have hfirst : ∀ a b, Reaches g.instructions a b → a + 1 < b →
      u < b ∨ u = b ∧ operandIdx g.instructions d u ≤ operandIdx g.instructions a b :=
    fun a b h hgap => head_sweep _ _ _ _ rfl (sweepExact_start _ _) hhead
      ((hsel a b).mpr (sinkMotion_iff.mpr ⟨h, hgap⟩))
  refine ⟨⟨hmotion.1, hmotion.2, fun c hc hgap => ?_⟩, fun a b h hgap => ?_⟩
  · exact ((hfirst c u hc hgap).resolve_left (lt_irrefl u)).2
  · rcases hfirst a b h hgap with hlt | ⟨rfl, -⟩
    · exact hlt.le
    · exact le_rfl

/-- `val a = 5` before another constant, and `return a`. -/
def farConstant : IRFunction :=
  { initIRFunction "far" with
    instructions := [
      { irInitInstr .loadConst with dest := 0, operand1 := irInt 5 },
      { irInitInstr .loadConst with dest := 1, operand1 := irInt 7 },
      { irInitInstr .ret with operand1 := irRegister 0 }] }

theorem farConstant_sinks : SinkMotion farConstant 0 2 ∧
    sinkOne farConstant (sinkBuildQual farConstant (sinkSlotCount farConstant)) = 2 * 65536 := by
  obtain ⟨hsel, hfirst⟩ := sweep_selects farConstant farConstant (.refl _)
  exact ⟨(hsel 0 2).mp (by decide), hfirst.trans (by decide)⟩

/-- `return 5`. -/
def nearConstant : IRFunction :=
  { initIRFunction "near" with
    instructions := [
      { irInitInstr .loadConst with dest := 0, operand1 := irInt 5 },
      { irInitInstr .ret with operand1 := irRegister 0 }] }

/-- The sweep leaves a constant alone that stands right before its use. -/
theorem nearConstant_stays : PlainMotion nearConstant 0 1 ∧
    (0, 1) ∉ sinkMotions nearConstant (sinkBuildQual nearConstant (sinkSlotCount nearConstant)) := by
  refine ⟨⟨⟨_, _, rfl, rfl, rfl, ?_, ?_⟩, by decide, by decide⟩, by decide⟩
  · decide
  · decide

end Opt
