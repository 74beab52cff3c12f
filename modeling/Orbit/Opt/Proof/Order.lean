import Orbit.Opt.Proof.Fold
import Orbit.Opt.Proof.Links
import Orbit.Opt.Proof.Sweep

/-!
# The order that sinking leaves

`sinkRounds` records the motions of the sinking loop. As long as no definition stands at position
65536 or later, every code gives back its motion, and the rounds only permute the list: a definition
still stands before its uses, and what is not moved keeps its order (`sinkLoop_kept`). A moved constant
ends right before its use unless another one shares the use, or the limit of the rounds stops the
loop between the two. Both can be read off the list before the first round (`sink_ordered_iff`).
-/

namespace Opt

open IR

/-! ## The rounds -/

/-- A round: the function before it, and the motion that the sweep found. -/
structure Round where
  before : IRFunction
  defIdx : Nat
  useIdx : Nat

/-- What the loop reads back from the code of a motion. -/
def decodedUse (code : Int) : Int := code / 65536
def decodedDef (code : Int) : Int := code - code / 65536 * 65536

/-- The rounds of the sinking loop. -/
def sinkRounds (qual : List Int) : Nat → IRFunction → List Round
  | 0, _ => []
  | rounds + 1, f =>
    match (sinkMotions f qual).head? with
    | none => []
    | some m =>
      ⟨f, m.1, m.2⟩ ::
        match moveInstrBefore f (decodedDef (motionCode m)).toNat
          (decodedUse (motionCode m)).toNat with
        | none => []
        | some g => sinkRounds qual rounds g

/-- The registers of the constants moved. -/
def movedRegs (rs : List Round) : List Int :=
  rs.filterMap fun r => (r.before.instructions[r.defIdx]?).map IRInstruction.dest

/-! ## The order -/

/-- Every use of register `r` has a definition of it before. -/
def DefinedFirst (is : List IRInstruction) (r : Int) : Prop :=
  ∀ (u : Nat) (U : IRInstruction), is[u]? = some U → .register r ∈ U.operands →
    ∃ (d : Nat) (D : IRInstruction), d < u ∧ is[d]? = some D ∧ D.dest = r

/-- The constant of register `r` stands right before its only use. -/
def RightBefore (is : List IRInstruction) (r : Int) : Prop :=
  (is.map (useCount r)).sum = 1 ∧ ∃ (k : Nat) (D U : IRInstruction), is[k]? = some D ∧
    is[k + 1]? = some U ∧ D.dest = r ∧ D.opcode = .loadConst ∧ .register r ∈ U.operands

/-- The instructions whose destination is none of the registers. -/
def unmoved (moved : List Int) (is : List IRInstruction) : List IRInstruction :=
  is.filter fun i => !moved.contains i.dest

/-- What moving the constants of some registers keeps. -/
structure Kept (is is' : List IRInstruction) (moved : List Int) : Prop where
  perm : is'.Perm is
  others : unmoved moved is' = unmoved moved is
  defined : ∀ r, DefinedFirst is r → DefinedFirst is' r

section
variable (f : IRFunction)

/-- The registers that qualify, and the rounds that sink them. -/
def qualOf : List Int := sinkBuildQual f (sinkSlotCount f)
def roundsOf : List Round := sinkRounds (qualOf f) maxRounds f

/-- Every motion recorded decodes to the pair it was built from, and together they give a permutation
of the instructions in which each constant moved stands right before its only use. -/
structure SinkOrdered : Prop where
  decoded : ∀ r ∈ roundsOf f, decodedUse (sinkOne r.before (qualOf f)) = r.useIdx ∧
    decodedDef (sinkOne r.before (qualOf f)) = r.defIdx
  applied : ∀ st, ∃ g st', sinkLoop (qualOf f) maxRounds (f, st) = some (g, st') ∧
    Kept f.instructions g.instructions (movedRegs (roundsOf f)) ∧
    ∀ r ∈ movedRegs (roundsOf f), RightBefore g.instructions r

end

/-! ## What the list before them says -/

section
variable (f : IRFunction)

/-- When sinking keeps the order, said of the list before it. The motions that the rounds come to are
those to a use with fewer rounds `spent` before it than the limit. Of these, the definition stands
before position 65536 when the constants moved before have passed it; no other constant has the same
use when there is a round left to move it too; and when the limit falls among the constants that go
along, those that have moved stood one right before another. -/
structure SinkSettles : Prop where
  fits : ∀ d u, Taken f.instructions d u → spent (Reaches f.instructions) u < maxRounds →
    d < 65536 + passing (Reaches f.instructions) d u
  alone : ∀ d u, Taken f.instructions d u →
    spent (Reaches f.instructions) u + carried (Reaches f.instructions) d < maxRounds →
      ∀ c, Reaches f.instructions c u → c = d
  whole : ∀ d u n, Taken f.instructions d u → spent (Reaches f.instructions) u + n = maxRounds →
    n < carried (Reaches f.instructions) d →
      ∀ j, j < n → Reaches f.instructions (d - j - 1) (d - j)

end

/-- Every register that a constant reads is defined before it. A constant as the builder writes it
reads none; one that was folded keeps the second operand of the operator it replaces. -/
def ReadsBack (is : List IRInstruction) : Prop :=
  ∀ (k : Nat) (K : IRInstruction) (r : Int), is[k]? = some K → K.opcode = .loadConst →
    .register r ∈ K.operands → ∃ (d : Nat) (D : IRInstruction), d < k ∧ is[d]? = some D ∧ D.dest = r

/-! ## Positions -/

section
variable {A M B : List IRInstruction} {D : IRInstruction}

theorem getElem?_moved (k : Nat) :
    (A ++ (M ++ D :: B))[movedIdx A.length M.length k]? = (A ++ D :: (M ++ B))[k]? := by
  unfold movedIdx
  split
  · rename_i h
    rw [h, after_at_def, before_at_def]
  · split
    · rename_i h1 h2
      obtain ⟨j, rfl⟩ : ∃ j, k = A.length + 1 + j := ⟨k - (A.length + 1), by omega⟩
      rw [before_inside (by omega), show A.length + 1 + j - 1 = A.length + j by omega,
        after_inside (by omega)]
    · exact outside_same (by omega)

/-- The new list, position by position. -/
theorem moved_getElem? {k : Nat} {i : IRInstruction} (h : (A ++ (M ++ D :: B))[k]? = some i) :
    ∃ j, movedIdx A.length M.length j = k ∧ (A ++ D :: (M ++ B))[j]? = some i := by
  obtain ⟨j, hj⟩ := movedIdx_surj A.length M.length k
  exact ⟨j, hj, by rw [← getElem?_moved, hj, h]⟩

end

/-! ## One motion -/

/-- The constant of register `r` stands before a use of it, the region between clear. -/
def Waits (is : List IRInstruction) (r : Int) : Prop :=
  ∃ (d u : Nat) (D U : IRInstruction), d < u ∧ is[d]? = some D ∧ is[u]? = some U ∧ D.dest = r ∧
    D.opcode = .loadConst ∧ .register r ∈ U.operands ∧
    ∀ k i, d ≤ k → k < u → is[k]? = some i → isBarrierOp i.opcode = false

/-- What a motion passes over: nothing that touches the register, and no barrier. -/
structure Passes (M : List IRInstruction) (D : IRInstruction) : Prop where
  const : D.opcode = .loadConst
  clear : ∀ i ∈ M, isBarrierOp i.opcode = false
  untouched : ∀ i ∈ M, useCount D.dest i = 0

theorem operand_used {r : Int} {i : IRInstruction} (h : .register r ∈ i.operands) :
    useCount r i ≠ 0 := by
  have : 0 < useCount r i := List.countP_pos_iff.mpr ⟨_, h, by simp⟩
  omega

section
variable {A M B : List IRInstruction} {D : IRInstruction} (h : Passes M D)
include h

/-- What moves is not passed by a use of its register. -/
theorem Passes.not_passed {u : Nat} {U : IRInstruction} (hU : (A ++ D :: (M ++ B))[u]? = some U)
    (ho : .register D.dest ∈ U.operands) (hlt : A.length < u) : A.length + M.length < u := by
  by_contra hle
  obtain ⟨j, rfl⟩ : ∃ j, u = A.length + 1 + j := ⟨u - (A.length + 1), by omega⟩
  rw [before_inside (by omega)] at hU
  exact operand_used ho (h.untouched U (List.mem_of_getElem? hU))

/-- A definition stays before a use. -/
theorem Passes.before {d u : Nat} {E U : IRInstruction} {r : Int}
    (hE : (A ++ D :: (M ++ B))[d]? = some E) (hdest : E.dest = r)
    (hU : (A ++ D :: (M ++ B))[u]? = some U) (ho : .register r ∈ U.operands) (hlt : d < u) :
    movedIdx A.length M.length d < movedIdx A.length M.length u := by
  refine movedIdx_lt hlt ?_
  rintro ⟨rfl, hle⟩
  rw [before_at_def] at hE
  obtain rfl := Option.some.inj hE
  have := h.not_passed hU (hdest ▸ ho) hlt
  omega

theorem Passes.definedFirst {r : Int} (hr : DefinedFirst (A ++ D :: (M ++ B)) r) :
    DefinedFirst (A ++ (M ++ D :: B)) r := by
  intro k U hk ho
  obtain ⟨u, rfl, hU⟩ := moved_getElem? hk
  obtain ⟨d, E, hlt, hE, hdest⟩ := hr u U hU ho
  exact ⟨movedIdx A.length M.length d, E, h.before hE hdest hU ho hlt, by rw [getElem?_moved, hE],
    hdest⟩

theorem Passes.readsBack (hr : ReadsBack (A ++ D :: (M ++ B))) : ReadsBack (A ++ (M ++ D :: B)) := by
  intro k K r hk hop ho
  obtain ⟨u, rfl, hK⟩ := moved_getElem? hk
  obtain ⟨d, E, hlt, hE, hdest⟩ := hr u K r hK hop ho
  exact ⟨movedIdx A.length M.length d, E, h.before hE hdest hK ho hlt, by rw [getElem?_moved, hE],
    hdest⟩

/-- The region of the motion has no barrier. -/
theorem Passes.no_barrier {k : Nat} {i : IRInstruction} (hi : (A ++ D :: (M ++ B))[k]? = some i)
    (ha : A.length ≤ k) (hm : k ≤ A.length + M.length) : isBarrierOp i.opcode = false := by
  rcases Nat.eq_or_lt_of_le ha with rfl | hlt
  · rw [before_at_def] at hi
    rw [← Option.some.inj hi, h.const]
    rfl
  · obtain ⟨j, rfl⟩ : ∃ j, k = A.length + 1 + j := ⟨k - (A.length + 1), by omega⟩
    rw [before_inside (by omega)] at hi
    exact h.clear i (List.mem_of_getElem? hi)

/-- A region is clear when it is clear where it goes. -/
theorem Passes.clear_iff {d u : Nat} :
    (∀ k i, movedIdx A.length M.length d ≤ k → k < movedIdx A.length M.length u →
        (A ++ (M ++ D :: B))[k]? = some i → isBarrierOp i.opcode = false) ↔
      ∀ k i, d ≤ k → k < u → (A ++ D :: (M ++ B))[k]? = some i → isBarrierOp i.opcode = false := by
  -- outside the region of the motion no position changes
  have hsame : ∀ k, ¬(A.length ≤ k ∧ k ≤ A.length + M.length) →
      movedIdx A.length M.length k = k ∧
        (movedIdx A.length M.length d ≤ k ↔ d ≤ k) ∧ (k < movedIdx A.length M.length u ↔ k < u) := by
    intro k hk
    unfold movedIdx
    split_ifs <;> omega
  constructor
  · intro hclear k i hdk hku hi
    by_cases hin : A.length ≤ k ∧ k ≤ A.length + M.length
    · exact h.no_barrier hi hin.1 hin.2
    · obtain ⟨hk, hd, hu⟩ := hsame k hin
      refine hclear k i (hd.mpr hdk) (hu.mpr hku) ?_
      rw [← hk, getElem?_moved, hi]
  · intro hclear k i hdk hku hi
    obtain ⟨j, rfl, hj⟩ := moved_getElem? hi
    by_cases hin : A.length ≤ j ∧ j ≤ A.length + M.length
    · exact h.no_barrier hj hin.1 hin.2
    · obtain ⟨hk, hd, hu⟩ := hsame j hin
      rw [hk] at hdk hku
      exact hclear j i (hd.mp hdk) (hu.mp hku) hj

theorem Passes.waits {r : Int} (hr : Waits (A ++ D :: (M ++ B)) r) :
    Waits (A ++ (M ++ D :: B)) r := by
  obtain ⟨d, u, E, U, hlt, hE, hU, hdest, hop, ho, hclear⟩ := hr
  exact ⟨_, _, E, U, h.before hE hdest hU ho hlt, by rw [getElem?_moved, hE],
    by rw [getElem?_moved, hU], hdest, hop, ho, h.clear_iff.mpr hclear⟩

/-- A motion keeps what reaches what. -/
theorem Passes.reaches_iff (hback : ReadsBack (A ++ D :: (M ++ B))) (a b : Nat) :
    Reaches (A ++ (M ++ D :: B)) (movedIdx A.length M.length a) (movedIdx A.length M.length b) ↔
      Reaches (A ++ D :: (M ++ B)) a b := by
  have hperm : (A ++ (M ++ D :: B)).Perm (A ++ D :: (M ++ B)) :=
    List.Perm.append_left A List.perm_middle
  constructor
  · intro hr
    obtain ⟨E, U, hE, hU, ho, hs⟩ := hr.use
    rw [getElem?_moved] at hE hU
    have hs := hs.perm hperm
    refine ⟨?_, ⟨E, U, hE, hU, ho, hs⟩, h.clear_iff.mp hr.clear⟩
    by_contra hle
    have hab : a ≠ b := by
      rintro rfl
      exact absurd hr.later (lt_irrefl _)
    have hlater := hr.later
    have hb : b = A.length ∧ a ≤ A.length + M.length := by
      by_contra hb
      exact absurd (movedIdx_lt (by omega) hb) (not_lt.mpr hlater.le)
    -- the constant that moves reads only what is defined before it
    obtain ⟨rfl, -⟩ := hb
    rw [before_at_def] at hU
    obtain rfl := Option.some.inj hU
    obtain ⟨d, F, hlt, hF, hdest⟩ := hback A.length D E.dest before_at_def h.const ho
    have := hs.unique hF hE hdest rfl
    omega
  · intro hr
    obtain ⟨E, U, hE, hU, ho, hs⟩ := hr.use
    exact ⟨h.before hE rfl hU ho hr.later,
      ⟨E, U, by rw [getElem?_moved, hE], by rw [getElem?_moved, hU], ho, hs.perm hperm.symm⟩,
      h.clear_iff.mpr hr.clear⟩

theorem Passes.kept : Kept (A ++ D :: (M ++ B)) (A ++ (M ++ D :: B)) [D.dest] where
  perm := List.Perm.append_left A List.perm_middle
  others := by simp [unmoved]
  defined _ hr := h.definedFirst hr

end

theorem unmoved_append (ms ns : List Int) (is : List IRInstruction) :
    unmoved (ms ++ ns) is = unmoved ns (unmoved ms is) := by
  unfold unmoved
  rw [List.filter_filter]
  congr 1
  funext i
  simp only [List.contains_eq_mem, List.mem_append, Bool.decide_or, Bool.not_or, Bool.and_comm]

theorem unmoved_comm (ms ns : List Int) (is : List IRInstruction) :
    unmoved ns (unmoved ms is) = unmoved ms (unmoved ns is) := by
  unfold unmoved
  rw [List.filter_filter, List.filter_filter]
  congr 1
  funext i
  exact Bool.and_comm _ _

theorem Kept.trans {is is' is'' : List IRInstruction} {ms ns : List Int} (h : Kept is is' ms)
    (h' : Kept is' is'' ns) : Kept is is'' (ms ++ ns) where
  perm := h'.perm.trans h.perm
  others := by
    rw [unmoved_append, unmoved_comm, h'.others, unmoved_comm, h.others, unmoved_append]
  defined r hr := h'.defined r (h.defined r hr)

theorem Kept.refl (is : List IRInstruction) : Kept is is [] where
  perm := .refl _
  others := rfl
  defined _ hr := hr

/-! ## The loop -/

theorem decodedUse_code {m : Nat × Nat} (h : m.1 < 65536) : decodedUse (motionCode m) = m.2 := by
  unfold decodedUse motionCode
  omega

theorem decodedDef_code {m : Nat × Nat} (h : m.1 < 65536) : decodedDef (motionCode m) = m.1 := by
  unfold decodedDef motionCode
  omega

/-- **A code gives back its motion** for a definition before position 65536, and for no other. -/
theorem decoded_iff (m : Nat × Nat) :
    (decodedUse (motionCode m) = m.2 ∧ decodedDef (motionCode m) = m.1) ↔ m.1 < 65536 := by
  refine ⟨fun h => ?_, fun h => ⟨decodedUse_code h, decodedDef_code h⟩⟩
  unfold decodedUse decodedDef motionCode at h
  omega

/-- What a round does to the list when it reads back its motion. -/
theorem round_spec {f g : IRFunction} (hp : g.instructions.Perm f.instructions) {d u : Nat}
    (hm : (d, u) ∈ sinkMotions g (qualOf f)) :
    ∃ A M B D, g.instructions = A ++ D :: (M ++ B) ∧ A.length = d ∧ A.length + 1 + M.length = u ∧
      Passes M D ∧
      moveInstrBefore g d u = some { g with instructions := A ++ (M ++ D :: B) } ∧
      Waits (A ++ D :: (M ++ B)) D.dest ∧ Sinkable f.instructions D.dest := by
  have hs := (mem_sinkMotions f g hp d u).mp hm
  obtain ⟨D, U, hD, hU, ho, hsink⟩ := hs.const
  have hclear := regionClear_iff.mp hs.clear
  have hmotion : Motion g.instructions (qualOf f) d u :=
    ⟨hs.apart, hclear, D, U, hD, hU, qual_iff.mpr (hsink.perm hp), ho⟩
  have hsinkf := hsink.perm hp
  obtain ⟨A, M, B, E, hg, rfl, rfl, -, hbar, V, hV, hVo⟩ := hmotion.split
  have hE : E = D := by
    rw [hg, before_at_def] at hD
    exact Option.some.inj hD
  subst hE
  rw [hg] at hsink
  obtain ⟨hconst, -, hM⟩ := hsink.untouched hV hVo
  refine ⟨A, M, B, E, hg, rfl, rfl, ⟨hconst, hbar, fun i hi => (hM i hi).2⟩, moveInstrBefore_split hg, ?_,
    hsinkf⟩
  rw [← hg]
  exact ⟨_, _, E, U, by omega, hD, hU, rfl, hconst, ho, hclear⟩

section
variable {qual : List Int} {g g' : IRFunction} {d u n : Nat}

theorem sinkRounds_none (hhead : (sinkMotions g qual).head? = none) (n : Nat) :
    sinkRounds qual n g = [] := by
  cases n with
  | zero => rfl
  | succ n => simp only [sinkRounds, hhead]

theorem sinkLoop_none (hhead : (sinkMotions g qual).head? = none) (n : Nat) (st : OptStats) :
    sinkLoop qual n (g, st) = some (g, st) := by
  cases n with
  | zero => rfl
  | succ n =>
    simp only [sinkLoop, sinkOne_eq, firstCode, hhead, Option.map_none, Option.getD_none]
    rw [if_pos (by decide)]

/-- What the rounds make of the list does not depend on what they count. -/
theorem sinkLoop_counts (n : Nat) (g : IRFunction) (st st' : OptStats) {h : IRFunction} {st2 : OptStats}
    (hloop : sinkLoop qual n (g, st) = some (h, st2)) :
    ∃ st2', sinkLoop qual n (g, st') = some (h, st2') := by
  induction n generalizing g st st' with
  | zero =>
    obtain ⟨rfl, -⟩ := Prod.mk.inj (Option.some.inj hloop)
    exact ⟨st', rfl⟩
  | succ n ih =>
    simp only [sinkLoop] at hloop ⊢
    split at hloop
    · rename_i hneg
      obtain ⟨rfl, -⟩ := Prod.mk.inj (Option.some.inj hloop)
      exact ⟨st', if_pos hneg⟩
    · rename_i hpos
      rw [if_neg hpos]
      split at hloop
      · cases hloop
      · exact ih _ _ _ hloop

variable (hhead : (sinkMotions g qual).head? = some (d, u)) (hlt : d < 65536)
  (hmove : moveInstrBefore g d u = some g')
include hhead hlt hmove

theorem sinkRounds_succ : sinkRounds qual (n + 1) g = ⟨g, d, u⟩ :: sinkRounds qual n g' := by
  have hu := decodedUse_code (m := (d, u)) hlt
  have hd := decodedDef_code (m := (d, u)) hlt
  simp only [sinkRounds, hhead, hu, hd, Int.toNat_natCast, hmove]

theorem movedRegs_succ {D : IRInstruction} (hD : g.instructions[d]? = some D) :
    movedRegs (sinkRounds qual (n + 1) g) = D.dest :: movedRegs (sinkRounds qual n g') := by
  rw [sinkRounds_succ hhead hlt hmove, movedRegs, List.filterMap_cons]
  simp only [hD, Option.map_some]
  rfl

theorem sinkLoop_succ (st : OptStats) :
    ∃ st', sinkLoop qual (n + 1) (g, st) = sinkLoop qual n (g', st') := by
  have hu := decodedUse_code (m := (d, u)) hlt
  have hd := decodedDef_code (m := (d, u)) hlt
  have hpos : ¬motionCode (d, u) < 0 := by
    unfold motionCode
    omega
  simp only [decodedUse, decodedDef] at hu hd
  simp only [sinkLoop, sinkOne_eq, firstCode, hhead, Option.map_some, Option.getD_some]
  rw [if_neg hpos]
  rw [hu] at hd ⊢
  rw [hd]
  simp only [Int.toNat_natCast, hmove]
  exact ⟨_, rfl⟩

end

/-- **The rounds only permute the list**, as long as every motion is read back: the order of the
instructions that are not moved, definitions before uses, and the constants moved before theirs. -/
theorem sinkLoop_kept (f : IRFunction) (rounds : Nat) (g : IRFunction) (st : OptStats)
    (hp : g.instructions.Perm f.instructions)
    (hfit : ∀ r ∈ sinkRounds (qualOf f) rounds g, r.defIdx < 65536) :
    ∃ h st', sinkLoop (qualOf f) rounds (g, st) = some (h, st') ∧
      Kept g.instructions h.instructions (movedRegs (sinkRounds (qualOf f) rounds g)) ∧
      ∀ r, Waits g.instructions r ∧ Sinkable f.instructions r ∨
          r ∈ movedRegs (sinkRounds (qualOf f) rounds g) →
        Waits h.instructions r ∧ Sinkable f.instructions r := by
  induction rounds generalizing g st with
  | zero =>
    exact ⟨g, st, rfl, Kept.refl _, fun r hr => hr.resolve_right (by simp [sinkRounds, movedRegs])⟩
  | succ rounds ih =>
    cases hhead : (sinkMotions g (qualOf f)).head? with
    | none =>
      rw [sinkRounds_none hhead] at hfit ⊢
      exact ⟨g, st, sinkLoop_none hhead _ st, Kept.refl _,
        fun r hr => hr.resolve_right (by simp [movedRegs])⟩
    | some m =>
      obtain ⟨d, u⟩ := m
      obtain ⟨A, M, B, D, hg, hd, -, hpass, hmove, hwait, hsink⟩ :=
        round_spec hp (List.mem_of_mem_head? hhead)
      have hlt : d < 65536 := hfit ⟨g, d, u⟩ (by
        simp only [sinkRounds, hhead]
        exact List.mem_cons_self)
      have hD : g.instructions[d]? = some D := by rw [hg, ← hd, before_at_def]
      have hrounds := sinkRounds_succ (n := rounds) hhead hlt hmove
      have hregs := movedRegs_succ (n := rounds) hhead hlt hmove hD
      obtain ⟨st2, heq⟩ := sinkLoop_succ (n := rounds) hhead hlt hmove st
      have hkept : Kept g.instructions (A ++ (M ++ D :: B)) [D.dest] := by
        rw [hg]
        exact hpass.kept
      obtain ⟨h, st', hloop, hk, hw⟩ := ih { g with instructions := A ++ (M ++ D :: B) } st2
        (hkept.perm.trans hp) (fun r hr => hfit r (by
          rw [hrounds]
          exact List.mem_cons_of_mem _ hr))
      refine ⟨h, st', heq.trans hloop, ?_, fun r hr => ?_⟩
      · rw [hregs]
        exact hkept.trans hk
      · rw [hregs] at hr
        rcases hr with ⟨hr, hs⟩ | hr
        · rw [hg] at hr
          exact hw r (.inl ⟨hpass.waits hr, hs⟩)
        · rcases List.mem_cons.mp hr with rfl | hr
          · exact hw _ (.inl ⟨hpass.waits hwait, hsink⟩)
          · exact hw r (.inr hr)

/-! ## Where the constants end -/

theorem sum_one_last {α : Type} {n : α → Nat} {is : List α} {d k : Nat} {x y : α}
    (h : (is.map n).sum = 1) (hd : is[d]? = some x) (hx : n x ≠ 0) (hk : is[k]? = some y)
    (hlt : d < k) : n y = 0 := by
  obtain ⟨hdl, rfl⟩ := List.getElem?_eq_some_iff.mp hd
  have hsplit : is = is.take d ++ is[d] :: is.drop (d + 1) := by
    rw [List.getElem_cons_drop, List.take_append_drop]
  have hmem : y ∈ is.drop (d + 1) := by
    refine List.mem_of_getElem? (i := k - (d + 1)) ?_
    rw [List.getElem?_drop, show d + 1 + (k - (d + 1)) = k by omega, hk]
  have hle : n y ≤ ((is.drop (d + 1)).map n).sum := List.le_sum_of_mem (List.mem_map_of_mem hmem)
  rw [hsplit, List.map_append, List.sum_append, List.map_cons, List.sum_cons] at h
  omega

/-- Only one position uses a register with one use. -/
theorem use_unique {is : List IRInstruction} {r : Int} (h : (is.map (useCount r)).sum = 1)
    {u k : Nat} {U K : IRInstruction} (hU : is[u]? = some U) (hK : is[k]? = some K)
    (ho : .register r ∈ U.operands) (hk : .register r ∈ K.operands) : u = k := by
  rcases Nat.lt_trichotomy u k with hlt | heq | hlt
  · exact absurd (sum_one_last h hU (operand_used ho) hK hlt) (operand_used hk)
  · exact heq
  · exact absurd (sum_one_last h hK (operand_used hk) hU hlt) (operand_used ho)

/-- A constant that waits before its use stands right before it when the sweep has no motion of it
left, and only then. -/
theorem Waits.rightBefore_iff {f g : IRFunction} (hp : g.instructions.Perm f.instructions) {r : Int}
    (hw : Waits g.instructions r) (hs : Sinkable g.instructions r) :
    RightBefore g.instructions r ↔
      ∀ d u D, (d, u) ∈ sinkMotions g (qualOf f) → g.instructions[d]? = some D → D.dest ≠ r := by
  have hsel := mem_sinkMotions f g hp
  constructor
  · rintro ⟨-, k, D, U, hD, hU, hdest, -, ho⟩ d u E hm hE rfl
    have hmot := (hsel d u).mp hm
    obtain ⟨E', V, hE', hV, hVo, -⟩ := hmot.const
    obtain rfl := Option.some.inj (hE'.symm.trans hE)
    have hdk := hs.unique hE hD rfl hdest
    have huk := use_unique hs.uses hV hU hVo ho
    have := hmot.apart
    omega
  · intro h
    obtain ⟨d, u, D, U, hlt, hD, hU, hdest, hop, ho, hclear⟩ := hw
    have hadj : u = d + 1 := by
      by_contra hne
      refine h d u D ((hsel d u).mpr ⟨⟨D, U, hD, hU, hdest ▸ ho, hdest ▸ hs⟩, by omega, ?_⟩) hD hdest
      exact regionClear_iff.mpr hclear
    subst hadj
    exact ⟨hs.uses, d, D, U, hD, hU, hdest, hop, ho⟩

theorem sinkRounds_code {qual : List Int} (rounds : Nat) {f : IRFunction} {r : Round}
    (hr : r ∈ sinkRounds qual rounds f) : sinkOne r.before qual = motionCode (r.defIdx, r.useIdx) := by
  induction rounds generalizing f with
  | zero => simp [sinkRounds] at hr
  | succ rounds ih =>
    simp only [sinkRounds] at hr
    split at hr
    · simp at hr
    · rename_i m hm
      rcases List.mem_cons.mp hr with rfl | hr
      · rw [sinkOne_eq, firstCode, hm]
        rfl
      · split at hr
        · simp at hr
        · exact ih hr

/-! ## What settles the rounds -/

/-- With `n` rounds left, and the constants of `moved` moved before: no round moves a definition that
stands at position 65536 or later, and behind the last round the sweep moves no constant again. -/
structure Settled (qual : List Int) (n : Nat) (g : IRFunction) (moved : List Int) : Prop where
  fits : ∀ r ∈ sinkRounds qual n g, r.defIdx < 65536
  done : ∀ st h st', sinkLoop qual n (g, st) = some (h, st') →
    ∀ d u D, (d, u) ∈ sinkMotions h qual → h.instructions[d]? = some D →
      D.dest ∉ moved ++ movedRegs (sinkRounds qual n g)

/-- Sinking keeps the order exactly when its rounds settle. -/
theorem ordered_iff_settled (f : IRFunction) :
    SinkOrdered f ↔ Settled (qualOf f) maxRounds f [] := by
  have hfits : (∀ r ∈ roundsOf f, decodedUse (sinkOne r.before (qualOf f)) = r.useIdx ∧
      decodedDef (sinkOne r.before (qualOf f)) = r.defIdx) ↔ ∀ r ∈ roundsOf f, r.defIdx < 65536 := by
    refine forall₂_congr fun r hr => ?_
    rw [sinkRounds_code maxRounds hr]
    exact decoded_iff (r.defIdx, r.useIdx)
  constructor
  · intro h
    refine ⟨hfits.mp h.decoded, fun st g st' hg d u D hm hD hmem => ?_⟩
    obtain ⟨h', st'', hloop, hk, hbefore⟩ := h.applied st
    obtain ⟨rfl, rfl⟩ := Prod.mk.inj (Option.some.inj (hg.symm.trans hloop))
    obtain ⟨g', st2, hloop', -, hw⟩ :=
      sinkLoop_kept f maxRounds f st (.refl _) (hfits.mp h.decoded)
    obtain ⟨rfl, rfl⟩ := Prod.mk.inj (Option.some.inj (hg.symm.trans hloop'))
    obtain ⟨hwait, hs⟩ := hw D.dest (.inr hmem)
    exact (hwait.rightBefore_iff hk.perm (hs.perm hk.perm.symm)).mp (hbefore _ hmem) d u D hm hD rfl
  · intro h
    refine ⟨hfits.mpr h.fits, fun st => ?_⟩
    obtain ⟨g, st', hloop, hk, hw⟩ := sinkLoop_kept f maxRounds f st (.refl _) h.fits
    refine ⟨g, st', hloop, hk, fun r hr => ?_⟩
    obtain ⟨hwait, hs⟩ := hw r (.inr hr)
    refine (hwait.rightBefore_iff hk.perm (hs.perm hk.perm.symm)).mpr fun d u D hm hD hdest => ?_
    exact h.done st g st' hloop d u D hm hD (hdest ▸ hr)

/-- The constant at a position is one of those moved. -/
def Among (moved : List Int) (is : List IRInstruction) (a : Nat) : Prop :=
  ∃ i, is[a]? = some i ∧ i.dest ∈ moved

/-- The motions taken behind the first one are the same. -/
theorem Sunk.taken_iff {is is' : List IRInstruction} {d u : Nat}
    (s : Sunk (Reaches is) (Reaches is') d u) (hget : ∀ k, is'[sunkIdx d u k]? = is[k]?) {a b : Nat}
    (hb : u < b) : Taken is' (sunkIdx d u a) b ↔ Taken is a b := by
  have hapart := s.apart
  have hbb : sunkIdx d u b = b := sunkIdx_behind hapart hb.le
  have hreach : ∀ c, Reaches is' (sunkIdx d u c) b ↔ Reaches is c b := fun c => by
    rw [← s.same c b, hbb]
  have hgap : ∀ c, Reaches is c b → (sunkIdx d u c + 1 < b ↔ c + 1 < b) := fun c hc => by
    rw [← s.apart_iff hc (by omega) hb.ne', hbb]
  have hindex : ∀ c, operandIdx is' (sunkIdx d u c) b = operandIdx is c b := fun c => by
    have hgetb := hget b
    rw [hbb] at hgetb
    rw [operandIdx, operandIdx, destAt, destAt, hget, hgetb]
  constructor
  · intro h
    have ha := (hreach a).mp h.reaches
    refine ⟨ha, (hgap a ha).mp h.apart, fun c hc hcgap => ?_⟩
    rw [← hindex a, ← hindex c]
    exact h.leftmost _ ((hreach c).mpr hc) ((hgap c hc).mpr hcgap)
  · intro h
    refine ⟨(hreach a).mpr h.reaches, (hgap a h.reaches).mpr h.apart, fun c hc hcgap => ?_⟩
    obtain ⟨c, rfl⟩ := sunkIdx_surj d u c
    have hc' := (hreach c).mp hc
    rw [hindex, hindex]
    exact h.leftmost c hc' ((hgap c hc').mp hcgap)

/-- **The first motion of the sweep is a round.** -/
theorem rounded {f g : IRFunction} (hp : g.instructions.Perm f.instructions)
    (hback : ReadsBack g.instructions) {moved : List Int}
    (hinv : ∀ a b, Reaches g.instructions a b → a + 1 < b → Among moved g.instructions a →
      (sinkMotions g (qualOf f)).head? = some (a, b)) {d u : Nat}
    (hhead : (sinkMotions g (qualOf f)).head? = some (d, u)) :
    ∃ is D, moveInstrBefore g d u = some { g with instructions := is } ∧ is.Perm g.instructions ∧
      ReadsBack is ∧ g.instructions[d]? = some D ∧
      Rounded (Reaches g.instructions) (Reaches is) (Taken g.instructions) (Taken is)
        (Among moved g.instructions) (Among (D.dest :: moved) is) d u := by
  obtain ⟨htaken, hfirst⟩ := head_taken hp hhead
  obtain ⟨A, M, B, D, hg, rfl, rfl, hpass, hmove, -, hsink⟩ :=
    round_spec hp (List.mem_of_mem_head? hhead)
  have hsinkg := hsink.perm hp.symm
  rw [hg] at hback htaken hfirst hinv hsinkg ⊢
  have hperm : (A ++ (M ++ D :: B)).Perm (A ++ D :: (M ++ B)) :=
    List.Perm.append_left A List.perm_middle
  have hidx : ∀ k, sunkIdx A.length (A.length + 1 + M.length) k = movedIdx A.length M.length k := by
    intro k
    rw [sunkIdx, show A.length + 1 + M.length - 1 - A.length = M.length by omega]
  have hsunk : Sunk (Reaches (A ++ D :: (M ++ B))) (Reaches (A ++ (M ++ D :: B))) A.length
      (A.length + 1 + M.length) :=
    { same := fun a b => by rw [hidx, hidx, hpass.reaches_iff hback]
      lt := fun a b h => h.later
      use := fun a b b' h h' => by
        obtain ⟨E, U, hE, hU, ho, hs⟩ := h.use
        obtain ⟨E', U', hE', hU', ho', -⟩ := h'.use
        obtain rfl := Option.some.inj (hE.symm.trans hE')
        exact use_unique hs.uses hU hU' ho ho'
      link := htaken.reaches
      apart := htaken.apart
      first := hfirst }
  have hget : ∀ k, (A ++ (M ++ D :: B))[sunkIdx A.length (A.length + 1 + M.length) k]? =
      (A ++ D :: (M ++ B))[k]? := fun k => by rw [hidx, getElem?_moved]
  refine ⟨A ++ (M ++ D :: B), D, hmove, hperm, hpass.readsBack hback, before_at_def, ?_⟩
  refine
    { hsunk with
      taken := htaken
      link_of := fun a b h => ⟨h.reaches, h.apart⟩
      unique := fun a h => h.unique htaken
      later := fun a b hb => hsunk.taken_iff hget hb
      link_of' := fun a b h => ⟨h.reaches, h.apart⟩
      taken' := fun a b h hgap => exists_taken h hgap
      moved := fun a => ?_
      inv := fun a b h hgap hmv => ?_ }
  · constructor
    · rintro ⟨i, hi, hmem⟩
      rw [hget] at hi
      rcases List.mem_cons.mp hmem with hdest | hmem
      · exact .inl (hsinkg.unique hi before_at_def hdest rfl)
      · exact .inr ⟨i, hi, hmem⟩
    · rintro (rfl | ⟨i, hi, hmem⟩)
      · exact ⟨D, by rw [hget, before_at_def], List.mem_cons_self⟩
      · exact ⟨i, by rw [hget, hi], List.mem_cons_of_mem _ hmem⟩
  · exact (Prod.mk.inj (Option.some.inj ((hinv a b h hgap hmv).symm.trans hhead))).1

section
variable {qual : List Int} {g g' : IRFunction} {d u n : Nat}
  (hhead : (sinkMotions g qual).head? = some (d, u)) (hlt : d < 65536)
  (hmove : moveInstrBefore g d u = some g')
include hhead hlt hmove

theorem settled_succ {D : IRInstruction} (hD : g.instructions[d]? = some D) (moved : List Int) :
    Settled qual (n + 1) g moved ↔ Settled qual n g' (D.dest :: moved) := by
  have hrounds := sinkRounds_succ (n := n) hhead hlt hmove
  have hmem : ∀ r, r ∈ moved ++ movedRegs (sinkRounds qual (n + 1) g) ↔
      r ∈ D.dest :: moved ++ movedRegs (sinkRounds qual n g') := by
    intro r
    rw [movedRegs_succ hhead hlt hmove hD]
    simp only [List.mem_append, List.mem_cons]
    tauto
  constructor
  · intro h
    refine ⟨fun r hr => h.fits r (by rw [hrounds]; exact List.mem_cons_of_mem _ hr),
      fun st h' st' hloop a b E hm hE hmoved => ?_⟩
    obtain ⟨st2, heq⟩ := sinkLoop_succ (n := n) hhead hlt hmove st
    obtain ⟨st3, hloop⟩ := sinkLoop_counts n g' st st2 hloop
    exact h.done st h' st3 (heq.trans hloop) a b E hm hE ((hmem _).mpr hmoved)
  · intro h
    refine ⟨fun r hr => ?_, fun st h' st' hloop a b E hm hE hmoved => ?_⟩
    · rw [hrounds] at hr
      rcases List.mem_cons.mp hr with rfl | hr
      · exact hlt
      · exact h.fits r hr
    · obtain ⟨st2, heq⟩ := sinkLoop_succ (n := n) hhead hlt hmove st
      rw [heq] at hloop
      exact h.done st2 h' st' hloop a b E hm hE ((hmem _).mp hmoved)

end

/-- **Two constants of one use do not both end right before it.** -/
theorem not_settled_of_shared {f g : IRFunction} (hp : g.instructions.Perm f.instructions)
    {moved : List Int} {n d c u : Nat} (hd : Reaches g.instructions d u)
    (hc : Reaches g.instructions c u) (hne : c ≠ d) (hmd : Among moved g.instructions d)
    (hmc : Among moved g.instructions c) : ¬Settled (qualOf f) n g moved := by
  intro hset
  obtain ⟨h, st', hloop, hkept, hw⟩ := sinkLoop_kept f n g ⟨0, 0, 0⟩ hp hset.fits
  have hpf := hkept.perm.trans hp
  have hwaits : ∀ a, Reaches g.instructions a u → Among moved g.instructions a →
      ∃ A k b, g.instructions[a]? = some A ∧ h.instructions[k]? = some A ∧
        Reaches h.instructions k b ∧ ¬k + 1 < b ∧
        ∀ U, g.instructions[u]? = some U → h.instructions[b]? = some U := by
    intro a ha hma
    obtain ⟨A, U, hA, hU, ho, hs⟩ := ha.use
    obtain ⟨A', hA', hmem⟩ := hma
    obtain rfl := Option.some.inj (hA.symm.trans hA')
    have hwait : Waits g.instructions A.dest := by
      refine ⟨a, u, A, U, ha.later, hA, hU, rfl, ?_, ho, ha.clear⟩
      obtain ⟨i, hi, hdest, hop, -⟩ := hs.movable
      obtain ⟨j, hj⟩ := List.mem_iff_getElem?.mp hi
      obtain rfl := hs.unique hj hA hdest rfl
      rw [Option.some.inj (hA.symm.trans hj)]
      exact hop
    obtain ⟨⟨k, b, K, V, hkb, hK, hV, hdest, -, hVo, hclear⟩, hsf⟩ := hw A.dest (.inl ⟨hwait, hs.perm hp⟩)
    have hsh := hsf.perm hpf.symm
    obtain ⟨j, hj⟩ := List.mem_iff_getElem?.mp (hkept.perm.mem_iff.mpr (List.mem_of_getElem? hA))
    obtain rfl := hsh.unique hK hj hdest rfl
    obtain rfl := Option.some.inj (hK.symm.trans hj)
    refine ⟨K, k, b, hA, hK, ⟨hkb, ⟨K, V, hK, hV, hVo, hsh⟩, hclear⟩, fun hgap => ?_, fun U' hU' => ?_⟩
    · have hm := (mem_sinkMotions f h hpf k b).mpr
        (sinkMotion_iff.mpr ⟨⟨hkb, ⟨K, V, hK, hV, hVo, hsh⟩, hclear⟩, hgap⟩)
      exact hset.done _ h st' hloop k b K hm hK (List.mem_append_left _ hmem)
    · obtain rfl := Option.some.inj (hU.symm.trans hU')
      obtain ⟨v, hv⟩ := List.mem_iff_getElem?.mp (hkept.perm.mem_iff.mpr (List.mem_of_getElem? hU))
      rwa [use_unique hsh.uses hV hv hVo ho]
  obtain ⟨D, k, b, hD, hK, hkb, hkgap, hUb⟩ := hwaits d hd hmd
  obtain ⟨C, k', b', hC, hK', hkb', hkgap', hUb'⟩ := hwaits c hc hmc
  obtain ⟨D', U, hD', hU, ho, hs⟩ := hd.use
  obtain rfl := Option.some.inj (hD.symm.trans hD')
  have hbb := use_unique ((hs.perm hkept.perm.symm).uses) (hUb U hU) (hUb' U hU) ho ho
  have hlater := hkb.later
  have hlater' := hkb'.later
  obtain rfl : k = k' := by omega
  obtain rfl := Option.some.inj (hK.symm.trans hK')
  exact hne (hs.unique hC hD rfl rfl)

theorem mem_motions {f g : IRFunction} (hp : g.instructions.Perm f.instructions) {a b : Nat} :
    (a, b) ∈ sinkMotions g (qualOf f) ↔ Reaches g.instructions a b ∧ a + 1 < b :=
  (mem_sinkMotions f g hp a b).trans sinkMotion_iff

/-- No rounds left: the constants that have moved stay where they are. -/
theorem settled_zero {f g : IRFunction} (hp : g.instructions.Perm f.instructions) {moved : List Int}
    (hinv : ∀ a b, Reaches g.instructions a b → a + 1 < b → Among moved g.instructions a →
      (sinkMotions g (qualOf f)).head? = some (a, b)) :
    Settled (qualOf f) 0 g moved ↔ ∀ a b, Taken g.instructions a b →
      Resumes (Reaches g.instructions) (Among moved g.instructions) 0 a b := by
  constructor
  · intro h a b ht
    refine ⟨fun hn => by omega, fun hn => by omega, fun hn => by omega, fun _ _ => ?_⟩
    rw [Nat.zero_sub]
    rintro ⟨i, hi, hmem⟩
    exact h.done ⟨0, 0, 0⟩ g _ rfl a b i ((mem_motions hp).mpr ⟨ht.reaches, ht.apart⟩) hi
      (List.mem_append_left _ hmem)
  · intro h
    refine ⟨by simp [sinkRounds], fun st h' st' hloop a b A hm hA hmem => ?_⟩
    obtain ⟨rfl, -⟩ := Prod.mk.inj (Option.some.inj hloop)
    obtain ⟨hr, hgap⟩ := (mem_motions hp).mp hm
    have hmv : Among moved g.instructions a :=
      ⟨A, hA, by simpa [sinkRounds, movedRegs] using hmem⟩
    obtain ⟨ht, hfirst⟩ := head_taken hp (hinv a b hr hgap hmv)
    have hspent : spent (Reaches g.instructions) b = 0 := load_eq_zero hfirst
    have hcarried := one_le_carried (R := Reaches g.instructions) a
    have hrun := (h a b ht).whole (by omega) (by omega)
    rw [hspent] at hrun
    exact hrun hmv

/-- Only the first motion after a round can be one of a constant that has moved. -/
theorem inv_round {f g : IRFunction} {R T : Nat → Nat → Prop} {Mv : Nat → Prop} {moved : List Int}
    {d u : Nat} (hp : g.instructions.Perm f.instructions)
    (hround : Rounded R (Reaches g.instructions) T (Taken g.instructions) Mv
      (Among moved g.instructions) d u) (hfresh : ∀ c, R c u → c ≠ d → ¬Mv c) {a b : Nat}
    (hr : Reaches g.instructions a b) (hgap : a + 1 < b) (hmv : Among moved g.instructions a) :
    (sinkMotions g (qualOf f)).head? = some (a, b) := by
  have hapart := hround.apart
  rcases Nat.lt_or_ge u b with hub | hbu
  · obtain ⟨a, rfl⟩ := sunkIdx_surj d u a
    have hbb : sunkIdx d u b = b := sunkIdx_behind hapart hub.le
    rw [← hbb] at hr hgap
    have hR := (hround.same a b).mp hr
    have had : a ≠ d := fun had => hub.ne' (hround.use d b u (had ▸ hR) hround.link)
    have hgap' := (hround.apart_iff hR (by omega) hub.ne').mp hgap
    exact absurd (hround.inv a b hR hgap' (((hround.moved a).mp hmv).resolve_left had)) had
  · rcases hround.early hr hgap hbu with ⟨ha, rfl, hfed⟩ | ⟨rfl, c, rfl, hc, hcd⟩
    · have hmem := (mem_motions hp).mpr ⟨hr, hgap⟩
      cases hhead : (sinkMotions g (qualOf f)).head? with
      | none =>
        rw [List.head?_eq_none_iff.mp hhead] at hmem
        exact absurd hmem List.not_mem_nil
      | some m =>
        obtain ⟨x, y⟩ := m
        obtain ⟨ht, hfirst⟩ := head_taken hp hhead
        have hy := hfirst _ _ hr hgap
        rcases hround.early ht.reaches ht.apart (by omega) with ⟨hx, rfl, -⟩ | ⟨rfl, -⟩
        · rw [show x = a by omega]
        · omega
    · exact absurd (((hround.moved c).mp hmv).resolve_left hcd) (hfresh c hc hcd)

/-- **What the rounds do is settled by the list before them.** -/
theorem settled_iff (f : IRFunction) (n : Nat) (g : IRFunction)
    (hp : g.instructions.Perm f.instructions) (hback : ReadsBack g.instructions) (moved : List Int)
    (hinv : ∀ a b, Reaches g.instructions a b → a + 1 < b → Among moved g.instructions a →
      (sinkMotions g (qualOf f)).head? = some (a, b)) :
    Settled (qualOf f) n g moved ↔ ∀ a b, Taken g.instructions a b →
      Resumes (Reaches g.instructions) (Among moved g.instructions) n a b := by
  induction n generalizing g moved with
  | zero => exact settled_zero hp hinv
  | succ n ih =>
    cases hhead : (sinkMotions g (qualOf f)).head? with
    | none =>
      have hnone : ∀ a b, (a, b) ∉ sinkMotions g (qualOf f) := fun a b => by
        rw [List.head?_eq_none_iff.mp hhead]
        exact List.not_mem_nil
      refine iff_of_true ⟨by simp [sinkRounds_none hhead], ?_⟩ fun a b ht => ?_
      · intro st h st' hloop a b A hm
        rw [sinkLoop_none hhead] at hloop
        obtain ⟨rfl, -⟩ := Prod.mk.inj (Option.some.inj hloop)
        exact absurd hm (hnone a b)
      · exact absurd ((mem_motions hp).mpr ⟨ht.reaches, ht.apart⟩) (hnone a b)
    | some m =>
      obtain ⟨d, u⟩ := m
      obtain ⟨is, D, hmove, hperm, hback', hD, hround⟩ := rounded hp hback hinv hhead
      have hspent : spent (Reaches g.instructions) u = 0 := load_eq_zero hround.first
      by_cases hlt : d < 65536
      · rw [settled_succ hhead hlt hmove hD]
        by_cases hfresh : ∀ c, Reaches g.instructions c u → c ≠ d → ¬Among moved g.instructions c
        · rw [hround.round_iff hfresh, and_iff_right hlt]
          exact ih { g with instructions := is } (hperm.trans hp) hback' _ fun a b =>
            inv_round (hperm.trans hp) hround hfresh
        · push Not at hfresh
          obtain ⟨c, hc, hcd, hmc⟩ := hfresh
          have hreach : ∀ x, Reaches g.instructions x u → Reaches is (sunkIdx d u x) u := by
            intro x hx
            have := (hround.same x u).mpr hx
            rwa [sunkIdx_behind hround.apart le_rfl] at this
          refine iff_of_false ?_ fun h => ?_
          · exact not_settled_of_shared (g := { g with instructions := is }) (hperm.trans hp)
              (hreach d hround.link) (hreach c hc) (fun h => hcd (sunkIdx_inj hround.apart h))
              ((hround.moved d).mpr (.inl rfl)) ((hround.moved c).mpr (.inr hmc))
          · exact (h d u hround.taken).fresh (by omega) c hc hcd hmc
      · refine iff_of_false (fun h => hlt ?_) fun h => hlt ?_
        · exact h.fits ⟨g, d, u⟩ (by simp only [sinkRounds, hhead]; exact List.mem_cons_self)
        · have hpass : passing (Reaches g.instructions) d u = 0 := load_eq_zero hround.first
          have := (h d u hround.taken).fits (by omega)
          omega

theorem run_iff {R : Nat → Nat → Prop} {Mv : Nat → Prop} (hMv : ∀ a, ¬Mv a) (n d : Nat) :
    Run R Mv n d ↔ ∀ j, j < n → R (d - j - 1) (d - j) := by
  induction n generalizing d with
  | zero => exact iff_of_true (hMv d) fun j hj => absurd hj (Nat.not_lt_zero j)
  | succ n ih =>
    rw [Run, ih (d - 1)]
    constructor
    · rintro ⟨hfirst, hrest⟩ j hj
      cases j with
      | zero => exact hfirst
      | succ j =>
        have := hrest j (by omega)
        rwa [Nat.sub_sub d 1 j, Nat.add_comm 1 j] at this
    · intro h
      refine ⟨h 0 (Nat.zero_lt_succ n), fun j hj => ?_⟩
      have := h (j + 1) (by omega)
      rwa [Nat.sub_sub d 1 j, Nat.add_comm 1 j]

/-! ## The lists that the folding leaves -/

theorem foldLoop_definedFirst {f : IRFunction} (h : ∀ r, DefinedFirst f.instructions r) (n : Nat) :
    ∀ r, DefinedFirst (foldLoop f n).1.instructions r := by
  induction n with
  | zero => exact h
  | succ n ih =>
    intro r u U' hU' ho'
    obtain ⟨U, hU, -, hreads⟩ := foldAt_reads _ n u U' hU'
    obtain ⟨d, D, hlt, hD, hdest⟩ := ih r u U hU (hreads r ho')
    have hkeep := foldAt_dest (foldLoop f n).1 n d
    rw [hD, Option.map_some] at hkeep
    obtain ⟨D', hD', hdest'⟩ := Option.map_eq_some_iff.mp hkeep
    exact ⟨d, D', hlt, hD', hdest'.trans hdest⟩

/-- A function that defines every register before its uses comes to the sinking with constants that
read back. -/
theorem foldLoop_readsBack {f : IRFunction} (h : ∀ r, DefinedFirst f.instructions r) (n : Nat) :
    ReadsBack (foldLoop f n).1.instructions :=
  fun k K r hK _ ho => foldLoop_definedFirst h n r k K hK ho

/-! ## The order -/

/-- **Sinking keeps the order exactly when the list before it says so.** -/
theorem sink_ordered_iff (f : IRFunction) (hback : ReadsBack f.instructions) :
    SinkOrdered f ↔ SinkSettles f := by
  have hnone : ∀ a, ¬Among [] f.instructions a := by
    rintro a ⟨i, -, hmem⟩
    exact absurd hmem List.not_mem_nil
  rw [ordered_iff_settled, settled_iff f maxRounds f (.refl _) hback [] fun a _ _ _ hmv =>
    absurd hmv (hnone a)]
  constructor
  · intro h
    refine ⟨fun d u ht => (h d u ht).fits, fun d u ht => (h d u ht).alone, fun d u n ht hn hlt => ?_⟩
    have hrun := (h d u ht).whole (by omega) (by omega)
    rw [show maxRounds - spent (Reaches f.instructions) u = n by omega] at hrun
    exact (run_iff hnone n d).mp hrun
  · intro h d u ht
    refine ⟨h.fits d u ht, h.alone d u ht, fun _ c _ _ => hnone c, fun hn hlt => ?_⟩
    exact (run_iff hnone _ d).mpr (h.whole d u _ ht (by omega) (by omega))

/-- `3 * 1`, with another constant between it and its use. -/
def product : IRFunction :=
  { initIRFunction "product" with
    instructions := [
      { irInitInstr .loadConst with dest := 0, operand1 := irInt 3 },
      { irInitInstr .loadConst with dest := 1, operand1 := irInt 1 },
      { irInitInstr .mul with dest := 2, operand1 := irRegister 0, operand2 := irRegister 1 },
      { irInitInstr .loadConst with dest := 3, operand1 := irInt 7 },
      { irInitInstr .ret with operand1 := irRegister 2 }] }

theorem product_defined (r : Int) : DefinedFirst product.instructions r := by
  intro u U hU ho
  rcases u with _ | _ | _ | _ | _ | u
  · obtain rfl := Option.some.inj hU
    simp [IRInstruction.operands, irInitInstr, irInt, irNone] at ho
  · obtain rfl := Option.some.inj hU
    simp [IRInstruction.operands, irInitInstr, irInt, irNone] at ho
  · obtain rfl := Option.some.inj hU
    simp only [IRInstruction.operands, irInitInstr, irRegister, irNone, List.mem_cons,
      IRValue.register.injEq, List.not_mem_nil, reduceCtorEq, or_false] at ho
    rcases ho with rfl | rfl
    · exact ⟨0, _, by omega, rfl, rfl⟩
    · exact ⟨1, _, by omega, rfl, rfl⟩
  · obtain rfl := Option.some.inj hU
    simp [IRInstruction.operands, irInitInstr, irInt, irNone] at ho
  · obtain rfl := Option.some.inj hU
    simp only [IRInstruction.operands, irInitInstr, irRegister, irNone, List.mem_cons,
      IRValue.register.injEq, List.not_mem_nil, reduceCtorEq, or_false] at ho
    subst ho
    exact ⟨2, _, by omega, rfl, rfl⟩
  · simp [product] at hU

/-- The folded product takes its second operand along. -/
theorem product_ordered : SinkOrdered (foldLoop product 5).1 := by
  have hmotions : ∀ b < 5, ∀ a < b, Reaches (foldLoop product 5).1.instructions a b → a + 1 < b →
      a = 2 ∧ b = 4 := by decide
  have honly : ∀ a b, Reaches (foldLoop product 5).1.instructions a b → a + 1 < b →
      a = 2 ∧ b = 4 := by
    intro a b h hgap
    obtain ⟨-, U, -, hU, -⟩ := h.use
    exact hmotions b (List.getElem?_eq_some_iff.mp hU).1 a h.later h hgap
  have hspent : spent (Reaches (foldLoop product 5).1.instructions) 4 = 0 :=
    load_eq_zero fun a b h hgap => (honly a b h hgap).2.ge
  have hcarried : carried (Reaches (foldLoop product 5).1.instructions) 2 = 2 := by
    have hfed : carried (Reaches (foldLoop product 5).1.instructions) 1 = 1 := by
      rw [carried, Fin.sum_univ_one, if_neg (by decide)]
    rw [carried, Fin.sum_univ_two, if_neg (by decide), if_pos (by decide)]
    rw [zero_add]
    exact congrArg (1 + ·) hfed
  refine (sink_ordered_iff _ (foldLoop_readsBack product_defined 5)).mpr ⟨?_, ?_, ?_⟩
  · intro d u ht _
    have := (honly d u ht.reaches ht.apart).1
    omega
  · intro d u ht _ c hc
    obtain ⟨rfl, rfl⟩ := honly d u ht.reaches ht.apart
    have : ∀ c < 4, Reaches (foldLoop product 5).1.instructions c 4 → c = 2 := by decide
    exact this c hc.later hc
  · intro d u n ht hn hlt
    obtain ⟨rfl, rfl⟩ := honly d u ht.reaches ht.apart
    rw [hspent, maxRounds] at hn
    omega

/-- `return 1 + 2`. -/
def sumOfTwo : IRFunction :=
  { initIRFunction "sum" with
    returnType := "int"
    registerCount := 3
    registerTypes := List.replicate 3 "int"
    instructions := [
      { irInitInstr .loadConst with dest := 0, operand1 := irInt 1 },
      { irInitInstr .loadConst with dest := 1, operand1 := irInt 2 },
      { irInitInstr .add with dest := 2, operand1 := irRegister 0, operand2 := irRegister 1 },
      { irInitInstr .ret with operand1 := irRegister 2 }] }

/-- Two rounds swap the two constants twice. -/
theorem sumOfTwo_loop (n : Nat) (st : OptStats) :
    ∃ st', sinkLoop (qualOf sumOfTwo) (2 * n) (sumOfTwo, st) = some (sumOfTwo, st') := by
  induction n generalizing st with
  | zero => exact ⟨st, rfl⟩
  | succ n ih =>
    obtain ⟨st', h⟩ := ih
      { st with patternsApplied := st.patternsApplied + 1 + 1, spanSaved := st.spanSaved + 1 + 1 }
    exact ⟨st', h⟩

/-- **The constants of `1 + 2` change places until the rounds are over**, and the first of them ends
where it began. -/
theorem sumOfTwo_unordered : ¬SinkOrdered sumOfTwo := by
  intro h
  obtain ⟨st', hloop⟩ := sumOfTwo_loop 128 ⟨0, 0, 0⟩
  obtain ⟨g, st, hg, -, hbefore⟩ := h.applied ⟨0, 0, 0⟩
  obtain ⟨rfl, rfl⟩ := Prod.mk.inj (Option.some.inj (hg.symm.trans hloop))
  obtain ⟨-, k, D, U, hD, hU, hdest, -, ho⟩ := hbefore 0 List.mem_cons_self
  rcases k with _ | _ | _ | _ | k
  · -- behind the first constant stands the second
    obtain rfl := Option.some.inj hU
    simp [IRInstruction.operands, irInitInstr, irInt, irNone] at ho
  · obtain rfl := Option.some.inj hD
    simp at hdest
  · obtain rfl := Option.some.inj hD
    simp at hdest
  · obtain rfl := Option.some.inj hD
    simp [irInitInstr] at hdest
  · simp [sumOfTwo] at hD

end Opt
