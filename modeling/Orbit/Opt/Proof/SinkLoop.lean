import Orbit.Opt.Proof.Sink

/-!
# The sinking loop

`sinkBuildQual` lets through sinkable registers only (`qual_sinkable`), a round finds a motion whose
region is clear (`sinkOne_spec`), and `moveInstrBefore` permutes the instructions
(`moveInstrBefore_split`). So every round is a motion of `move_same`, and the loop keeps behaviour
(`sinkLoop_same`) as long as no motion starts past position 65535 (`SinkOk`).
-/

namespace Opt

open IR

/-! ## The tables -/

@[simp] theorem length_setSlot (l : List Int) (k v : Int) : (setSlot l k v).length = l.length := by
  unfold setSlot; split <;> simp

@[simp] theorem length_bump (l : List Int) (k : Int) : (bump l k).length = l.length :=
  length_setSlot _ _ _

theorem sinkGetInt_setSlot {l : List Int} {k v j : Int} (hj : 0 ≤ j) (hl : j < l.length) :
    sinkGetInt (setSlot l k v) j = if k = j then v else sinkGetInt l j := by
  have hj' : ¬ j < 0 := Int.not_lt.mpr hj
  simp only [sinkGetInt, hj', if_false, setSlot]
  by_cases hk : k = j
  · subst hk
    simp [hj, hl, List.getD_eq_getElem?_getD]
  · simp only [hk, if_false]
    split
    · rw [List.getD_eq_getElem?_getD, List.getElem?_set_ne (by omega), List.getD_eq_getElem?_getD]
    · rfl

theorem sinkGetInt_bump {l : List Int} {k j : Int} (hj : 0 ≤ j) (hl : j < l.length) :
    sinkGetInt (bump l k) j = sinkGetInt l j + if k = j then 1 else 0 := by
  rw [bump, sinkGetInt_setSlot hj hl]
  split
  · rename_i h; rw [h]
  · omega

theorem sinkGetInt_zeros (n : Nat) (j : Int) : sinkGetInt (List.replicate n 0) j = 0 := by
  simp only [sinkGetInt, List.getD_eq_getElem?_getD, List.getElem?_replicate]
  split
  · rfl
  · split <;> rfl

theorem sinkRegSlot_eq {o : IRValue} {r : Int} (hr : 0 ≤ r) :
    sinkRegSlot o = r ↔ o = .register r := by
  cases o <;> simp only [sinkRegSlot, IRValue.register.injEq, reduceCtorEq, iff_false] <;> omega

/-- The uses of `r` in an instruction, as the tables count them. -/
theorem useCount_slots {r : Int} (hr : 0 ≤ r) (i : IRInstruction) :
    (useCount r i : Int) = (if sinkRegSlot i.operand1 = r then 1 else 0) +
      (if sinkRegSlot i.operand2 = r then 1 else 0) +
      (if sinkRegSlot i.operand3 = r then 1 else 0) := by
  simp only [sinkRegSlot_eq hr, useCount, IRInstruction.operands, List.countP_cons, List.countP_nil,
    beq_iff_eq]
  push_cast
  split <;> split <;> split <;> rfl

/-- The tables have a slot for each register below `n`. -/
structure SinkTables.Sized (t : SinkTables) (n : Nat) : Prop where
  defs : t.defCount.length = n
  uses : t.useCount.length = n
  mov : t.movable.length = n

theorem SinkTables.Sized.tally {t : SinkTables} {n : Nat} (h : t.Sized n) (i : IRInstruction) :
    (t.tally i).Sized n := by
  refine ⟨by simp [SinkTables.tally, h.defs], by simp [SinkTables.tally, h.uses], ?_⟩
  simp only [SinkTables.tally]
  split <;> simp [h.mov]

section
variable {r : Int} {n : Nat} (hr : 0 ≤ r) (hn : r < n)
include hr hn

theorem tally_defs (is : List IRInstruction) (t : SinkTables) (h : t.Sized n) :
    sinkGetInt (is.foldl SinkTables.tally t).defCount r =
      sinkGetInt t.defCount r + is.countP (fun i => i.dest == r) := by
  induction is generalizing t with
  | nil => simp
  | cons i is ih =>
    rw [List.foldl_cons, ih _ (h.tally i)]
    simp only [SinkTables.tally]
    rw [sinkGetInt_bump hr (by rw [h.defs]; exact hn), List.countP_cons]
    by_cases hd : i.dest = r <;> (simp [hd]; try omega)

theorem tally_uses (is : List IRInstruction) (t : SinkTables) (h : t.Sized n) :
    sinkGetInt (is.foldl SinkTables.tally t).useCount r =
      sinkGetInt t.useCount r + (is.map (useCount r)).sum := by
  induction is generalizing t with
  | nil => simp
  | cons i is ih =>
    have hlen : r < t.useCount.length := by rw [h.uses]; exact hn
    rw [List.foldl_cons, ih _ (h.tally i)]
    simp only [SinkTables.tally]
    rw [sinkGetInt_bump hr (by simpa using hlen), sinkGetInt_bump hr (by simpa using hlen),
      sinkGetInt_bump hr hlen, List.map_cons, List.sum_cons]
    push_cast
    rw [useCount_slots hr]
    omega

theorem tally_movable (is : List IRInstruction) (t : SinkTables) (h : t.Sized n)
    (h1 : sinkGetInt (is.foldl SinkTables.tally t).movable r = 1) :
    sinkGetInt t.movable r = 1 ∨
      ∃ i ∈ is, i.dest = r ∧ i.opcode = .loadConst ∧ isMovableConst i.operand1 = true := by
  induction is generalizing t with
  | nil => exact .inl h1
  | cons i is ih =>
    rcases ih _ (h.tally i) h1 with h1 | ⟨j, hj, hm⟩
    · simp only [SinkTables.tally] at h1
      split at h1
      · rename_i hc
        rw [sinkGetInt_setSlot hr (by rw [h.mov]; exact hn)] at h1
        split at h1
        · rename_i hd; exact .inr ⟨i, by simp, hd, hc.1, hc.2⟩
        · exact .inl h1
      · exact .inl h1
    · exact .inr ⟨j, by simp [hj], hm⟩

end

/-- **A register that qualifies is sinkable.** -/
theorem qual_sinkable {f : IRFunction} {slots r : Int}
    (h : sinkGetInt (sinkBuildQual f slots) r = 1) : Sinkable f.instructions r := by
  have hr : 0 ≤ r := by
    by_contra hr
    simp [sinkGetInt, Int.not_le.mp hr] at h
  have hn : r < (slots.toNat : Int) := by
    by_contra hn
    have hlen : ((sinkBuildQual f slots).length : Int) ≤ r := by simpa [sinkBuildQual] using hn
    simp only [sinkGetInt, Int.not_lt.mpr hr, if_false, List.getD_eq_getElem?_getD,
      List.getElem?_eq_none (show (sinkBuildQual f slots).length ≤ r.toNat by omega)] at h
    cases h
  have hinit : (SinkTables.init slots).Sized slots.toNat := by
    constructor <;> simp [SinkTables.init]
  have hzero : ∀ k : Int, sinkGetInt (List.replicate slots.toNat 0) k = 0 := sinkGetInt_zeros _
  have hq : sinkGetInt (f.instructions.foldl SinkTables.tally (.init slots)).defCount r = 1 ∧
      sinkGetInt (f.instructions.foldl SinkTables.tally (.init slots)).useCount r = 1 ∧
      sinkGetInt (f.instructions.foldl SinkTables.tally (.init slots)).movable r = 1 := by
    rw [sinkGetInt, if_neg (Int.not_lt.mpr hr), sinkBuildQual, List.getD_eq_getElem?_getD,
      List.getElem?_map, List.getElem?_range (show r.toNat < slots.toNat by omega)] at h
    simp only [Option.map_some, Option.getD_some, Int.toNat_of_nonneg hr] at h
    split at h
    · assumption
    · cases h
  obtain ⟨hd, hu, hm⟩ := hq
  rw [tally_defs hr hn _ _ hinit] at hd
  rw [tally_uses hr hn _ _ hinit] at hu
  have hm := tally_movable hr hn _ _ hinit hm
  simp only [SinkTables.init, hzero] at hd hu hm
  exact ⟨hr, by omega, by omega, hm.resolve_left (by simp)⟩

/-! ## Finding a motion -/

/-- The motion of a qualifying constant at `d` to its use at `u`. -/
structure Motion (is : List IRInstruction) (qual : List Int) (d u : Nat) : Prop where
  lt : d + 1 < u
  clear : ∀ k i, d ≤ k → k < u → is[k]? = some i → isBarrierOp i.opcode = false
  used : ∃ D U, is[d]? = some D ∧ is[u]? = some U ∧ sinkGetInt qual D.dest = 1 ∧
    .register D.dest ∈ U.operands

/-- What the sweep knows when it comes to position `ui`. -/
structure SweepInv (is : List IRInstruction) (qual : List Int) (ui : Nat) (lastDef : List Int)
    (lastBar : Int) : Prop where
  size : lastDef.length = qual.length
  defs : ∀ r : Int, 0 ≤ r → r < lastDef.length → 0 ≤ sinkGetInt lastDef r →
    ∃ D, is[(sinkGetInt lastDef r).toNat]? = some D ∧ D.dest = r
  bars : ∀ (k : Nat) (i : IRInstruction), lastBar < k → k < ui → is[k]? = some i →
    isBarrierOp i.opcode = false

theorem sinkTryOperand_spec {u : Int} {o : IRValue} {qual lastDef : List Int} {lastBar : Int}
    (h : 0 ≤ sinkTryOperand u o qual lastDef lastBar) :
    ∃ r d, o = .register r ∧ 0 ≤ r ∧ r < qual.length ∧ sinkGetInt qual r = 1 ∧
      d = sinkGetInt lastDef r ∧ 0 ≤ d ∧ d + 1 < u ∧ lastBar < d ∧
      sinkTryOperand u o qual lastDef lastBar = u * 65536 + d := by
  simp only [sinkTryOperand] at h ⊢
  split at h
  · omega
  · rename_i h1
    rw [if_neg h1]
    split at h
    · omega
    · rename_i h2
      rw [if_neg h2]
      split at h
      · omega
      · rename_i h3
        rw [if_neg h3]
        split at h
        · omega
        · rename_i h4
          rw [if_neg h4]
          split at h
          · omega
          · rename_i h5
            rw [if_neg h5]
            split at h
            · omega
            · rename_i h6
              rw [if_neg h6]
              split at h
              · omega
              · rename_i h7
                rw [if_neg h7]
                refine ⟨_, _, (sinkRegSlot_eq (by omega)).mp rfl, by omega, by omega, by omega,
                  rfl, by omega, by omega, by omega, rfl⟩

/-- An operand the sweep accepts gives a motion. -/
theorem SweepInv.motion {is : List IRInstruction} {qual lastDef : List Int} {ui : Nat}
    {lastBar : Int} {o : IRValue} {U : IRInstruction} (hinv : SweepInv is qual ui lastDef lastBar)
    (hU : is[ui]? = some U) (ho : o ∈ U.operands)
    (h : 0 ≤ sinkTryOperand ui o qual lastDef lastBar) :
    ∃ d u : Nat, Motion is qual d u ∧
      sinkTryOperand ui o qual lastDef lastBar = u * 65536 + d := by
  obtain ⟨r, d, rfl, hr, hlen, hq, hd, hd0, hdu, hbar, hres⟩ := sinkTryOperand_spec h
  obtain ⟨D, hD, hdest⟩ := hinv.defs r hr (by rw [hinv.size]; exact hlen) (hd ▸ hd0)
  rw [← hd] at hD
  refine ⟨d.toNat, ui, ⟨by omega, fun k i hk hku hi => ?_, D, U, hD, hU, hdest ▸ hq,
    hdest ▸ ho⟩, by omega⟩
  exact hinv.bars k i (by omega) hku hi

theorem SweepInv.defined {is : List IRInstruction} {qual lastDef : List Int} {ui : Nat}
    {lastBar : Int} {i : IRInstruction} (hinv : SweepInv is qual ui lastDef lastBar)
    (hi : is[ui]? = some i) : SweepInv is qual ui (setSlot lastDef i.dest ui) lastBar where
  size := by simp [hinv.size]
  defs := by
    intro r hr hlen h0
    rw [length_setSlot] at hlen
    rw [sinkGetInt_setSlot hr hlen] at h0 ⊢
    split
    · rename_i hd
      exact ⟨i, by simpa using hi, hd⟩
    · rename_i hd
      rw [if_neg hd] at h0
      exact hinv.defs r hr hlen h0
  bars := hinv.bars

theorem SweepInv.next {is : List IRInstruction} {qual lastDef : List Int} {ui : Nat}
    {lastBar : Int} {i : IRInstruction} (hinv : SweepInv is qual ui lastDef lastBar)
    (hi : is[ui]? = some i) :
    SweepInv is qual (ui + 1) lastDef (if isBarrierOp i.opcode then (ui : Int) else lastBar) where
  size := hinv.size
  defs := hinv.defs
  bars := by
    intro k j hk hku hj
    rcases Nat.lt_or_eq_of_le (Nat.le_of_lt_succ hku) with hlt | rfl
    · refine hinv.bars k j ?_ hlt hj
      split at hk <;> omega
    · obtain rfl : j = i := Option.some.inj (hj.symm.trans hi)
      split at hk
      · omega
      · simpa using ‹¬isBarrierOp j.opcode = true›

theorem sinkSweep_spec {is : List IRInstruction} {qual : List Int} (rest : List IRInstruction)
    (ui : Nat) (lastDef : List Int) (lastBar : Int) (hrest : is.drop ui = rest)
    (hinv : SweepInv is qual ui lastDef lastBar)
    (h : 0 ≤ sinkSweep qual rest ui lastDef lastBar) :
    ∃ d u : Nat, Motion is qual d u ∧ sinkSweep qual rest ui lastDef lastBar = u * 65536 + d := by
  induction rest generalizing ui lastDef lastBar with
  | nil => simp [sinkSweep] at h
  | cons i rest ih =>
    have hi : is[ui]? = some i := by
      have := congrArg (·[0]?) hrest
      simpa using this
    have hinv' := hinv.defined hi
    simp only [sinkSweep] at h ⊢
    split
    · rename_i h1; exact hinv'.motion hi (by simp [IRInstruction.operands]) h1
    · rename_i h1
      rw [if_neg h1] at h
      split
      · rename_i h2; exact hinv'.motion hi (by simp [IRInstruction.operands]) h2
      · rename_i h2
        rw [if_neg h2] at h
        split
        · rename_i h3; exact hinv'.motion hi (by simp [IRInstruction.operands]) h3
        · rename_i h3
          rw [if_neg h3] at h
          have hcast : (ui : Int) + 1 = ((ui + 1 : Nat) : Int) := by omega
          rw [hcast] at h ⊢
          refine ih (ui + 1) _ _ ?_ (hinv'.next hi) h
          rw [← List.drop_drop, hrest]
          rfl

/-- **A round finds a motion**, coded as one integer. -/
theorem sinkOne_spec {f : IRFunction} {qual : List Int} (h : 0 ≤ sinkOne f qual) :
    ∃ d u : Nat, Motion f.instructions qual d u ∧ sinkOne f qual = u * 65536 + d := by
  refine sinkSweep_spec f.instructions 0 _ _ rfl ⟨by simp, fun r hr hlen h0 => ?_, ?_⟩ h
  · simp only [List.length_replicate] at hlen
    simp only [sinkGetInt, Int.not_lt.mpr hr, if_false, List.getD_eq_getElem?_getD,
      List.getElem?_replicate] at h0
    rw [if_pos (by omega)] at h0
    simp at h0
  · intro k i _ hk; omega

/-! ## Making it -/

/-- The shifting loop moves the instructions after the first one down and leaves a copy of the
last. -/
theorem shiftDown_split (A M B : List IRInstruction) (x : IRInstruction) :
    ∃ y, shiftDown M.length A.length (A ++ x :: (M ++ B)) = some (A ++ (M ++ y :: B)) := by
  induction M generalizing A x with
  | nil => exact ⟨x, rfl⟩
  | cons m M ih =>
    obtain ⟨y, hy⟩ := ih (A ++ [m]) m
    refine ⟨y, ?_⟩
    have hget : (A ++ x :: (m :: M ++ B))[A.length + 1]? = some m := by
      rw [List.getElem?_append_right (by omega), Nat.add_sub_cancel_left]
      rfl
    have hset : (A ++ x :: (m :: M ++ B)).set A.length m = (A ++ [m]) ++ m :: (M ++ B) := by
      simp
    simp only [List.length_cons, shiftDown, hget, hset]
    simpa using hy

theorem moveInstrBefore_split {f : IRFunction} {A M B : List IRInstruction} {D : IRInstruction}
    (hf : f.instructions = A ++ D :: (M ++ B)) :
    moveInstrBefore f A.length (A.length + 1 + M.length) =
      some { f with instructions := A ++ (M ++ D :: B) } := by
  obtain ⟨y, hy⟩ := shiftDown_split A M B D
  have hlast : A.length + 1 + M.length - 1 = A.length + M.length := by omega
  have hset : (A ++ (M ++ y :: B)).set (A.length + M.length) D = A ++ (M ++ D :: B) := by simp
  simp only [moveInstrBefore, hf, before_at_def, hlast, Nat.add_sub_cancel_left, hy, hset]

/-- The instructions around a motion. -/
theorem Motion.split {is : List IRInstruction} {qual : List Int} {d u : Nat}
    (h : Motion is qual d u) :
    ∃ A M B D, is = A ++ D :: (M ++ B) ∧ A.length = d ∧ A.length + 1 + M.length = u ∧
      sinkGetInt qual D.dest = 1 ∧ (∀ i ∈ M, isBarrierOp i.opcode = false) ∧
      ∃ U ∈ B, .register D.dest ∈ U.operands := by
  obtain ⟨D, U, hD, hU, hq, huse⟩ := h.used
  have hlt := h.lt
  obtain ⟨hd, rfl⟩ := List.getElem?_eq_some_iff.mp hD
  obtain ⟨hu, rfl⟩ := List.getElem?_eq_some_iff.mp hU
  have hsplit : is = is.take d ++ is[d] :: ((is.drop (d + 1)).take (u - (d + 1)) ++ is.drop u) := by
    rw [show is.drop u = (is.drop (d + 1)).drop (u - (d + 1)) by rw [List.drop_drop]; congr 1; omega,
      List.take_append_drop, List.getElem_cons_drop, List.take_append_drop]
  refine ⟨_, _, _, _, hsplit, by simp; omega, by simp; omega, hq, ?_, is[u], ?_, huse⟩
  · intro i hi
    obtain ⟨j, hj⟩ := List.mem_iff_getElem?.mp hi
    rw [List.getElem?_take, List.getElem?_drop] at hj
    split at hj
    · exact h.clear _ i (by omega) (by omega) hj
    · cases hj
  · exact List.mem_of_getElem? (i := 0) (by simp [hU])

theorem countP_one_split {α : Type} {p : α → Bool} {A M : List α} {D : α}
    (h : (A ++ D :: M).countP p = 1) (hD : p D = true) : ∀ i ∈ M, p i = false := by
  simp only [List.countP_append, List.countP_cons, hD, if_true] at h
  have hM : M.countP p = 0 := by omega
  intro i hi
  simpa using List.countP_eq_zero.mp hM i hi

/-- In a motion of a sinkable register nothing passed over touches the register. -/
theorem Sinkable.untouched {A M B : List IRInstruction} {D U : IRInstruction}
    (h : Sinkable (A ++ D :: (M ++ B)) D.dest) (hU : U ∈ B) (huse : .register D.dest ∈ U.operands) :
    D.opcode = .loadConst ∧ isMovableConst D.operand1 = true ∧
      ∀ i ∈ M, i.dest ≠ D.dest ∧ useCount D.dest i = 0 := by
  have hrest := countP_one_split (p := fun i : IRInstruction => i.dest == D.dest) h.defs (by simp)
  have hfront : ∀ i ∈ A, i.dest ≠ D.dest := by
    have hd := h.defs
    simp only [List.countP_append, List.countP_cons, beq_self_eq_true, if_true] at hd
    intro i hi
    have := List.countP_eq_zero.mp (show A.countP (fun i => i.dest == D.dest) = 0 by omega) i hi
    simpa using this
  have hconst : D.opcode = .loadConst ∧ isMovableConst D.operand1 = true := by
    obtain ⟨i, hi, hdest, hm⟩ := h.movable
    rcases List.mem_append.mp hi with hi | hi
    · exact absurd hdest (hfront i hi)
    · rcases List.mem_cons.mp hi with rfl | hi
      · exact hm
      · have := hrest i hi
        simp [hdest] at this
  refine ⟨hconst.1, hconst.2, fun i hi => ⟨?_, ?_⟩⟩
  · simpa using hrest i (List.mem_append_left B hi)
  · have hpos : 0 < useCount D.dest U := List.countP_pos_iff.mpr ⟨_, huse, by simp⟩
    have hB : useCount D.dest U ≤ (B.map (useCount D.dest)).sum :=
      List.le_sum_of_mem (List.mem_map_of_mem hU)
    have hsum := h.uses
    simp only [List.map_append, List.map_cons, List.sum_append, List.sum_cons] at hsum
    have hM : useCount D.dest i ≤ (M.map (useCount D.dest)).sum :=
      List.le_sum_of_mem (List.mem_map_of_mem hi)
    omega

/-- No motion of the rounds starts past the positions that fit its code. -/
def SinkOk (qual : List Int) : Nat → IRFunction → Prop
  | 0, _ => True
  | rounds + 1, f =>
    ∀ d u : Nat, Motion f.instructions qual d u → sinkOne f qual = u * 65536 + d →
      d < 65536 ∧ ∀ g, moveInstrBefore f d u = some g → SinkOk qual rounds g

theorem shiftDown_length {n i : Nat} {is is' : List IRInstruction}
    (h : shiftDown n i is = some is') : is'.length = is.length := by
  induction n generalizing i is with
  | zero => cases h; rfl
  | succ n ih =>
    simp only [shiftDown] at h
    split at h
    · rw [ih h, List.length_set]
    · cases h

theorem moveInstrBefore_length {f g : IRFunction} {d u : Nat}
    (h : moveInstrBefore f d u = some g) : g.instructions.length = f.instructions.length := by
  simp only [moveInstrBefore] at h
  split at h
  · cases h
  · split at h
    · cases h
    · rename_i is his
      cases h
      simp [shiftDown_length his]

/-- A function of at most 65536 instructions has no motion past them. -/
theorem sinkOk_of_length {qual : List Int} (rounds : Nat) {f : IRFunction}
    (h : f.instructions.length ≤ 65536) : SinkOk qual rounds f := by
  induction rounds generalizing f with
  | zero => trivial
  | succ rounds ih =>
    intro d u hm _
    obtain ⟨_, _, hd, -⟩ := hm.used
    have := (List.getElem?_eq_some_iff.mp hd).1
    exact ⟨by omega, fun g hg => ih (by rw [moveInstrBefore_length hg]; exact h)⟩

/-- **The sinking loop keeps behaviour.** -/
theorem sinkLoop_same {qual : List Int} (rounds : Nat) (f : IRFunction) (st : OptStats)
    (hq : ∀ r, sinkGetInt qual r = 1 → Sinkable f.instructions r) (hok : SinkOk qual rounds f) :
    ∃ g st', sinkLoop qual rounds (f, st) = some (g, st') ∧
      ∀ {W : Type} (rt : Runtime W), SameBehaviour rt f g := by
  induction rounds generalizing f st with
  | zero => exact ⟨f, st, rfl, fun _ => .refl f⟩
  | succ rounds ih =>
    simp only [sinkLoop]
    split
    · exact ⟨f, st, rfl, fun _ => .refl f⟩
    · rename_i hpos
      obtain ⟨d, u, hm, hcode⟩ := sinkOne_spec (Int.not_lt.mp hpos)
      obtain ⟨hd, hnext⟩ := hok d u hm hcode
      obtain ⟨A, M, B, D, hf, rfl, rfl, hqual, hbar, U, hU, huse⟩ := hm.split
      have hs := hq D.dest hqual
      rw [hf] at hs
      obtain ⟨hconst, hmov, hM⟩ := hs.untouched hU huse
      have hmove := moveInstrBefore_split hf
      have hu' : sinkOne f qual / 65536 = (A.length + 1 + M.length : Nat) := by omega
      have hd' : sinkOne f qual - (A.length + 1 + M.length : Nat) * 65536 = A.length := by omega
      rw [hu', hd', Int.toNat_natCast, Int.toNat_natCast, hmove]
      simp only
      have hperm : f.instructions.Perm (A ++ (M ++ D :: B)) := by
        rw [hf]
        exact List.Perm.append_left A List.perm_middle.symm
      obtain ⟨g, st', hg, hsame⟩ := ih { f with instructions := A ++ (M ++ D :: B) } _
        (fun r hr => (hq r hr).perm hperm) (hnext _ hmove)
      refine ⟨g, st', hg, fun rt => .trans ?_ (hsame rt)⟩
      exact move_same hf hconst hs.nonneg hmov fun i hi => ⟨hbar i hi, hM i hi⟩

end Opt
