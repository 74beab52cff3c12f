import Orbit.IR.Prune
import Orbit.Lib.Probe
import Mathlib.Data.List.GetD
import Mathlib.Data.List.Perm.Subperm
import Mathlib.Data.List.Nodup
import Mathlib.Data.List.Range

/-!
# What pruning keeps

The table of names finds every function of a name (`pruneReachName_spec`), the queue holds what was
reached, each function once (`Queued`), and at its end everything reachable was reached:
`pruneUnreachable_keeps`.
-/

namespace IR

open Lib.Probe (dist next Chained Holds load walk)

/-! ## What is reachable -/

/-- An operand of the function is the name; the empty text is no name. -/
def Names (f : IRFunction) (name : String) : Prop :=
  name ≠ "" ∧ ∃ inst ∈ f.instructions, ∃ op ∈ inst.operands, op = .string name ∨ op = .sym name

/-- The functions, by index, that the roots reach through names. -/
inductive Reached (module : IRModule) : Nat → Prop
  | root {i : Nat} {f : IRFunction} (hf : module.functions[i]? = some f)
      (hroot : pruneIsRoot f = true) : Reached module i
  | named {i j : Nat} {f g : IRFunction} (hi : Reached module i)
      (hf : module.functions[i]? = some f) (hg : module.functions[j]? = some g)
      (hname : Names f g.name) : Reached module j

/-! ## The table of names -/

section
variable {module : IRModule}

def slotsOf (slots : PruneSlots) : Nat → Option Nat := fun i => slots.getD i none

/-- The name of the function with the given index. -/
def nameAt (module : IRModule) (idx : Nat) : String := (module.functions[idx]?).elim "" (·.name)

/-- The first slot of the search of a function. -/
def slotHome (module : IRModule) (size idx : Nat) : Nat := pruneHash (nameAt module idx) % size

theorem pruneFreeSlot_eq (slots : PruneSlots) (fuel pos : Nat) :
    pruneFreeSlot slots fuel pos =
      Lib.Probe.probe slots.length (fun i => (slotsOf slots i).isNone) fuel pos := by
  induction fuel generalizing pos with
  | zero => rfl
  | succ fuel ih => rw [pruneFreeSlot, Lib.Probe.probe, ih, next, slotsOf]

/-- The table with the functions before index `count`. -/
structure Slotted (module : IRModule) (size count : Nat) (slots : PruneSlots) : Prop where
  length : slots.length = size
  chained : Chained size (slotHome module size) (slotsOf slots)
  holds : ∀ idx, Holds (slotsOf slots) idx ↔ idx < count
  load : load size (slotsOf slots) = count

theorem Slotted.add {size count : Nat} {slots : PruneSlots} (h : Slotted module size count slots)
    (hsize : count < size) {f : IRFunction} (hf : module.functions[count]? = some f) :
    ∃ slots', pruneAddSlot slots (f, count) = some slots' ∧
      Slotted module size (count + 1) slots' := by
  have hpos : 0 < size := Nat.zero_lt_of_lt hsize
  have hhome : slotHome module size count = pruneHash f.name % size := by
    rw [slotHome, nameAt, hf, Option.elim_some]
  have hlt : slotHome module size count < size := Nat.mod_lt _ hpos
  obtain ⟨k, hk, hkfree⟩ := Lib.Probe.exists_free_of_load (h.load ▸ hsize)
  obtain ⟨pos, hpn, hprobe, hnone, hmin⟩ :=
    Lib.Probe.exists_probe (fun i => (slotsOf slots i).isNone) hlt
      ⟨k, hk, by simp only [hkfree, Option.isNone_none]⟩
  rw [Option.isNone_iff_eq_none] at hnone
  have hslots : slotsOf (slots.set pos (some count)) =
      Function.update (slotsOf slots) pos (some count) := by
    funext i
    by_cases hi : i = pos
    · subst hi
      simp [slotsOf, h.length ▸ hpn]
    · rw [Function.update_of_ne hi]
      simp [slotsOf, List.getD_eq_getElem?_getD, List.getElem?_set_ne (Ne.symm hi)]
  refine ⟨slots.set pos (some count), ?_,
    ⟨by rw [List.length_set, h.length], ?_, fun idx => ?_, ?_⟩⟩
  · simp only [pruneAddSlot, pruneFreeSlot_eq, h.length, ← hhome, hprobe, bind, Option.bind, pure]
  · rw [hslots]
    exact h.chained.insert hnone (fun z hz hzfree => hmin z hz (by rw [hzfree]; rfl)) hlt hpn
  · rw [hslots, Lib.Probe.holds_insert hnone, h.holds]
    omega
  · rw [hslots, Lib.Probe.load_insert hpn hnone, h.load]

theorem Slotted.addAll {size : Nat} (done : List IRFunction) {rest : List IRFunction}
    {slots : PruneSlots} (h : Slotted module size done.length slots)
    (hmodule : module.functions = done ++ rest)
    (hsize : module.functions.length < size) :
    ∃ slots', (rest.zipIdx done.length).foldlM pruneAddSlot slots = some slots' ∧
      Slotted module size module.functions.length slots' := by
  induction rest generalizing done slots with
  | nil => exact ⟨slots, rfl, by rwa [hmodule, List.append_nil]⟩
  | cons f rest ih =>
    have hlen : done.length < size := by
      rw [hmodule, List.length_append, List.length_cons] at hsize
      omega
    have hf : module.functions[done.length]? = some f := by simp [hmodule]
    obtain ⟨slots', hadd, hslotted⟩ := h.add hlen hf
    have hdone : done.length + 1 = (done ++ [f]).length := by simp
    rw [hdone] at hslotted
    obtain ⟨slots'', hrest, hall⟩ := ih _ hslotted (by rw [hmodule]; simp)
    refine ⟨slots'', ?_, hall⟩
    rw [List.zipIdx_cons, List.foldlM_cons, hadd, hdone]
    exact hrest

/-- The table of a module is at most half full. -/
theorem pruneBuildSlots_spec (module : IRModule) :
    ∃ slots, pruneBuildSlots module (module.functions.length * 2 + 1) = some slots ∧
      Slotted module (module.functions.length * 2 + 1) module.functions.length slots := by
  have hempty : slotsOf (List.replicate (module.functions.length * 2 + 1) none) =
      fun _ => none := by
    funext i
    simp [slotsOf]
  refine Slotted.addAll [] ⟨List.length_replicate, ?_, fun idx => ?_, ?_⟩ rfl (by omega)
  · rw [hempty]
    exact Chained.empty
  · rw [hempty]
    simp [Holds]
  · rw [hempty, Lib.Probe.load_empty]
    rfl

/-! ## The queue -/

/-- The queue holds each reached function once. -/
structure Queued (module : IRModule) (st : PruneState) : Prop where
  length : st.reached.length = module.functions.length
  nodup : st.queue.Nodup
  mem : ∀ i, i ∈ st.queue ↔ st.reached.getD i false = true

theorem Queued.lt {st : PruneState} (h : Queued module st) {i : Nat} (hi : i ∈ st.queue) :
    i < module.functions.length := by
  rw [h.mem] at hi
  by_contra hge
  rw [List.getD_eq_default _ _ (by rw [h.length]; exact Nat.le_of_not_lt hge)] at hi
  cases hi

theorem Queued.length_le {st : PruneState} (h : Queued module st) :
    st.queue.length ≤ module.functions.length := by
  have hsub : st.queue ⊆ List.range module.functions.length :=
    fun i hi => List.mem_range.mpr (h.lt hi)
  have hle := (h.nodup.subperm hsub).length_le
  rwa [List.length_range] at hle

/-- What a step of the scan does: the queue grows by what satisfies `p`. -/
structure Grows (module : IRModule) (p : Nat → Prop) (st st' : PruneState) : Prop where
  queued : Queued module st'
  front : st.queue <+: st'.queue
  mem : ∀ i, i ∈ st'.queue ↔ i ∈ st.queue ∨ p i

theorem Grows.trans {p q r : Nat → Prop} {st st' st'' : PruneState} (h : Grows module p st st')
    (h' : Grows module q st' st'') (hr : ∀ i, r i ↔ p i ∨ q i) : Grows module r st st'' :=
  ⟨h'.queued, h.front.trans h'.front, fun i => by rw [h'.mem, h.mem, hr, or_assoc]⟩

/-- The function with the given index has the name. -/
def Named (module : IRModule) (name : String) (i : Nat) : Prop :=
  ∃ f, module.functions[i]? = some f ∧ f.name = name

theorem pruneReachIndex_spec {st : PruneState} (h : Queued module st) (name : String) (idx : Nat) :
    Grows module (fun i => i = idx ∧ Named module name i) st
      (pruneReachIndex module name st idx) := by
  unfold pruneReachIndex
  by_cases hnamed : Named module name idx
  · obtain ⟨f, hf, hname⟩ := hnamed
    have hany : module.functions[idx]?.any (·.name = name) = true := by simp [hf, hname]
    have hidx : idx < st.reached.length := by
      rw [h.length]
      exact (List.getElem?_eq_some_iff.mp hf).1
    by_cases hseen : st.reached.getD idx false = true
    · rw [if_neg (by rw [hseen]; simp)]
      refine ⟨h, List.prefix_rfl, fun i => ?_⟩
      have hmem := (h.mem idx).mpr hseen
      constructor
      · exact .inl
      · rintro (hi | ⟨rfl, -⟩)
        · exact hi
        · exact hmem
    · rw [if_pos (by rw [hany]; simpa using hseen)]
      have hnew : idx ∉ st.queue := fun hi => hseen ((h.mem idx).mp hi)
      have hmem : ∀ i, i ∈ st.queue ++ [idx] ↔ i ∈ st.queue ∨ i = idx := by
        intro i
        rw [List.mem_append, List.mem_singleton]
      refine ⟨⟨?_, ?_, fun i => ?_⟩, List.prefix_append .., fun i => ?_⟩
      · rw [List.length_set, h.length]
      · exact h.nodup.append (List.nodup_singleton idx) (List.disjoint_singleton.mpr hnew)
      · rw [hmem, h.mem]
        by_cases hi : i = idx
        · subst hi
          simp [hidx]
        · simp [hi, List.getD_eq_getElem?_getD, List.getElem?_set_ne (Ne.symm hi)]
      · rw [hmem]
        refine or_congr_right (iff_self_and.mpr ?_)
        rintro rfl
        exact ⟨f, hf, hname⟩
  · have hany : module.functions[idx]?.any (·.name = name) = false := by
      cases hf : module.functions[idx]? with
      | none => rfl
      | some f =>
        rw [Option.any_some, decide_eq_false_iff_not]
        exact fun hname => hnamed ⟨f, hf, hname⟩
    rw [if_neg (by rw [hany]; simp)]
    refine ⟨h, List.prefix_rfl, fun i => ?_⟩
    constructor
    · exact .inl
    · rintro (hi | ⟨rfl, hi⟩)
      · exact hi
      · exact absurd hi hnamed

theorem foldl_pruneReachIndex {st : PruneState} (h : Queued module st) (name : String)
    (l : List Nat) :
    Grows module (fun i => i ∈ l ∧ Named module name i) st
      (l.foldl (pruneReachIndex module name) st) := by
  induction l generalizing st with
  | nil =>
    refine ⟨h, List.prefix_rfl, fun i => ?_⟩
    simp
  | cons idx l ih =>
    have hstep := pruneReachIndex_spec h name idx
    refine hstep.trans (ih hstep.queued) fun i => ?_
    rw [List.mem_cons, or_and_right]

/-! ## The scan -/

/-- The function with the given index is named by `f`. -/
def NamedBy (module : IRModule) (f : IRFunction) (i : Nat) : Prop :=
  ∃ g, module.functions[i]? = some g ∧ Names f g.name

theorem pruneOperandName_eq {op : IRValue} {name : String} (hname : name ≠ "") :
    pruneOperandName op = name ↔ op = .string name ∨ op = .sym name := by
  cases op <;> simp [pruneOperandName, hname.symm]


theorem pruneReachName_eq (slots : PruneSlots) (name : String) (fuel pos : Nat)
    (st : PruneState) :
    pruneReachName module slots name fuel pos st =
      (walk slots.length (slotsOf slots) fuel pos).map
        (·.foldl (pruneReachIndex module name) st) := by
  induction fuel generalizing pos st with
  | zero => rfl
  | succ fuel ih =>
    rw [pruneReachName, walk, slotsOf]
    cases slots.getD pos none with
    | none => rfl
    | some idx =>
      simp only [ih, Option.map_map, next]
      rfl

section
variable {slots : PruneSlots} {size : Nat}
variable (hs : Slotted module size module.functions.length slots)
variable (hsize : module.functions.length < size)
include hs hsize

/-- **The table finds every function of a name.** -/
theorem pruneReachName_spec {st : PruneState} (h : Queued module st) (name : String) :
    ∃ st', pruneReachName module slots name slots.length (pruneHash name % slots.length) st =
        some st' ∧ Grows module (Named module name) st st' := by
  have hpos : pruneHash name % size < size := Nat.mod_lt _ (Nat.zero_lt_of_lt hsize)
  obtain ⟨l, hl, -, hmem⟩ := hs.chained.exists_walk hpos
    (Lib.Probe.exists_free_of_load (hs.load ▸ hsize))
  have hgrows := foldl_pruneReachIndex h name l
  refine ⟨_, by rw [pruneReachName_eq, hs.length, hl, Option.map_some], hgrows.queued,
    hgrows.front, fun i => ?_⟩
  rw [hgrows.mem]
  refine or_congr_right (and_iff_right_of_imp ?_)
  rintro ⟨f, hf, rfl⟩
  obtain ⟨j, hj⟩ := (hs.holds i).mpr (List.getElem?_eq_some_iff.mp hf).1
  have hjn : j < size := by
    by_contra hge
    rw [slotsOf, List.getD_eq_default _ _ (by rw [hs.length]; exact Nat.le_of_not_lt hge)] at hj
    cases hj
  apply hmem j hjn i hj
  rw [slotHome, nameAt, hf, Option.elim_some]

theorem pruneReachOperand_spec {st : PruneState} (h : Queued module st) (op : IRValue) :
    ∃ st', pruneReachOperand module slots st op = some st' ∧
      Grows module (fun i => pruneOperandName op ≠ "" ∧ Named module (pruneOperandName op) i)
        st st' := by
  unfold pruneReachOperand
  by_cases hname : pruneOperandName op ≠ ""
  · obtain ⟨st', hst', hgrows⟩ := pruneReachName_spec hs hsize h (pruneOperandName op)
    refine ⟨st', by simp only [if_pos hname]; exact hst', hgrows.queued, hgrows.front, fun i => ?_⟩
    rw [hgrows.mem, and_iff_right hname]
  · refine ⟨st, by simp only [if_neg hname], h, List.prefix_rfl, fun i => ?_⟩
    rw [or_iff_left fun hno => hname hno.1]

theorem foldlM_pruneReachOperand {st : PruneState} (h : Queued module st) (ops : List IRValue) :
    ∃ st', ops.foldlM (pruneReachOperand module slots) st = some st' ∧
      Grows module (fun i => ∃ op ∈ ops, pruneOperandName op ≠ "" ∧
        Named module (pruneOperandName op) i) st st' := by
  induction ops generalizing st with
  | nil => exact ⟨st, rfl, h, List.prefix_rfl, fun i => by simp⟩
  | cons op ops ih =>
    obtain ⟨st₁, h₁, hg₁⟩ := pruneReachOperand_spec hs hsize h op
    obtain ⟨st₂, h₂, hg₂⟩ := ih hg₁.queued
    refine ⟨st₂, ?_, hg₁.trans hg₂ fun i => ?_⟩
    · rw [List.foldlM_cons, h₁]
      exact h₂
    · simp only [List.mem_cons, or_and_right, exists_or, exists_eq_left]

theorem foldlM_operands {st : PruneState} (h : Queued module st) (is : List IRInstruction) :
    ∃ st', is.foldlM (fun st inst => inst.operands.foldlM (pruneReachOperand module slots) st) st =
        some st' ∧
      Grows module (fun i => ∃ inst ∈ is, ∃ op ∈ inst.operands, pruneOperandName op ≠ "" ∧
        Named module (pruneOperandName op) i) st st' := by
  induction is generalizing st with
  | nil => exact ⟨st, rfl, h, List.prefix_rfl, fun i => by simp⟩
  | cons inst is ih =>
    obtain ⟨st₁, h₁, hg₁⟩ := foldlM_pruneReachOperand hs hsize h inst.operands
    obtain ⟨st₂, h₂, hg₂⟩ := ih hg₁.queued
    refine ⟨st₂, ?_, hg₁.trans hg₂ fun i => ?_⟩
    · rw [List.foldlM_cons, h₁]
      exact h₂
    · simp only [List.mem_cons, or_and_right, exists_or, exists_eq_left]

/-- **One scan** queues every function the scanned one names. -/
theorem pruneScan_spec {st : PruneState} (h : Queued module st) (f : IRFunction) :
    ∃ st', pruneScan module slots f st = some st' ∧ Grows module (NamedBy module f) st st' := by
  obtain ⟨st', hst', hgrows⟩ := foldlM_operands hs hsize h f.instructions
  refine ⟨st', hst', hgrows.queued, hgrows.front, fun i => ?_⟩
  rw [hgrows.mem]
  refine or_congr_right ⟨?_, ?_⟩
  · rintro ⟨inst, hinst, op, hop, hne, g, hg, hname⟩
    rw [← hname] at hne
    exact ⟨g, hg, hne, inst, hinst, op, hop, (pruneOperandName_eq hne).mp hname.symm⟩
  · rintro ⟨g, hg, hne, inst, hinst, op, hop, hname⟩
    have hop' := (pruneOperandName_eq hne).mpr hname
    exact ⟨inst, hinst, op, hop, by rwa [hop'], g, hg, hop'.symm⟩

/-! ## The loop over the queue -/

/-- The functions before `head` are scanned, and only reachable ones are queued. -/
structure Scanned (module : IRModule) (head : Nat) (st : PruneState) : Prop where
  queued : Queued module st
  head_le : head ≤ st.queue.length
  sound : ∀ i ∈ st.queue, Reached module i
  closed : ∀ k < head, ∀ j, st.queue[k]? = some j → ∀ f, module.functions[j]? = some f →
    ∀ i, NamedBy module f i → i ∈ st.queue

theorem pruneLoop_spec (fuel : Nat) {head : Nat} {st : PruneState} (h : Scanned module head st)
    (hfuel : module.functions.length < head + fuel) :
    ∃ st' head', pruneLoop module slots fuel head st = some st' ∧
      Scanned module head' st' ∧ st'.queue.length ≤ head' ∧ st.queue <+: st'.queue := by
  induction fuel generalizing head st with
  | zero =>
    have h1 := h.head_le
    have h2 := h.queued.length_le
    omega
  | succ fuel ih =>
    rw [pruneLoop]
    cases hj : st.queue[head]? with
    | none => exact ⟨st, head, rfl, h, List.getElem?_eq_none_iff.mp hj, List.prefix_rfl⟩
    | some j =>
      have hjmem : j ∈ st.queue := List.mem_of_getElem? hj
      have hjlt := h.queued.lt hjmem
      have hf := List.getElem?_eq_getElem hjlt
      obtain ⟨st₁, h₁, hg⟩ := pruneScan_spec hs hsize h.queued module.functions[j]
      have hget : ∀ k < st.queue.length, st₁.queue[k]? = st.queue[k]? :=
        fun k hk => (List.prefix_iff_getElem?.mp hg.front k hk).trans
          (List.getElem?_eq_getElem hk).symm
      have hhead : head < st.queue.length := (List.getElem?_eq_some_iff.mp hj).1
      have hscanned : Scanned module (head + 1) st₁ := by
        refine ⟨hg.queued, ?_, fun i hi => ?_, fun k hk j' hj' f hf' i hi => ?_⟩
        · exact Nat.lt_of_lt_of_le hhead hg.front.length_le
        · rcases (hg.mem i).mp hi with hi | ⟨g, hg', hname⟩
          · exact h.sound i hi
          · exact .named (h.sound j hjmem) hf hg' hname
        · rw [hget k (by omega)] at hj'
          rw [hg.mem]
          by_cases hkh : k = head
          · subst hkh
            rw [hj, Option.some.injEq] at hj'
            subst hj'
            rw [hf, Option.some.injEq] at hf'
            subst hf'
            exact .inr hi
          · exact .inl (h.closed k (by omega) j' hj' f hf' i hi)
      obtain ⟨st', head', hloop, hs', hle, hfront⟩ := ih hscanned (by omega)
      refine ⟨st', head', ?_, hs', hle, hg.front.trans hfront⟩
      simp only [hf, h₁, bind, Option.bind, hloop]

end

end

/-! ## The result -/

theorem getD_map_root (module : IRModule) (i : Nat) :
    (pruneStart module).reached.getD i false = true ↔
      ∃ f, module.functions[i]? = some f ∧ pruneIsRoot f = true := by
  rw [pruneStart, List.getD_eq_getElem?_getD, List.getElem?_map]
  cases module.functions[i]? <;> simp

theorem mem_pruneStart (module : IRModule) (i : Nat) :
    i ∈ (pruneStart module).queue ↔
      ∃ f, module.functions[i]? = some f ∧ pruneIsRoot f = true := by
  simp only [pruneStart, List.mem_map, List.mem_filter, Prod.exists, List.mem_zipIdx_iff_getElem?]
  constructor
  · rintro ⟨f, j, ⟨hf, hroot⟩, rfl⟩
    exact ⟨f, hf, hroot⟩
  · rintro ⟨f, hf, hroot⟩
    exact ⟨f, i, ⟨hf, hroot⟩, rfl⟩

theorem queued_pruneStart (module : IRModule) : Queued module (pruneStart module) := by
  refine ⟨List.length_map .., ?_, fun i => ?_⟩
  · have hnodup : (module.functions.zipIdx.map Prod.snd).Nodup := by
      rw [List.zipIdx_map_snd]
      exact List.nodup_range'
    exact hnodup.sublist (List.filter_sublist.map _)
  · rw [mem_pruneStart, getD_map_root]

/-- The search reaches what is reachable. -/
theorem exists_pruneLoop (module : IRModule) :
    ∃ slots st, pruneBuildSlots module (module.functions.length * 2 + 1) = some slots ∧
      pruneLoop module slots (module.functions.length + 1) 0 (pruneStart module) = some st ∧
      ∀ i, st.reached.getD i false = true ↔ Reached module i := by
  obtain ⟨slots, hslots, hslotted⟩ := pruneBuildSlots_spec module
  have hstart : Scanned module 0 (pruneStart module) := by
    refine ⟨queued_pruneStart module, Nat.zero_le _, fun i hi => ?_, nofun⟩
    obtain ⟨f, hf, hroot⟩ := (mem_pruneStart module i).mp hi
    exact .root hf hroot
  obtain ⟨st, head, hloop, hscanned, hle, hfront⟩ :=
    pruneLoop_spec hslotted (by omega) (module.functions.length + 1) hstart (by omega)
  refine ⟨slots, st, hslots, hloop, fun i => ?_⟩
  rw [← hscanned.queued.mem]
  refine ⟨hscanned.sound i, fun hreach => ?_⟩
  induction hreach with
  | root hf hroot => exact hfront.subset ((mem_pruneStart module _).mpr ⟨_, hf, hroot⟩)
  | named _ hf hg hname ih =>
    obtain ⟨k, hk, hj⟩ := List.getElem_of_mem ih
    exact hscanned.closed k (Nat.lt_of_lt_of_le hk hle) _
      (by rw [List.getElem?_eq_getElem hk, hj]) _ hf _ ⟨_, hg, hname⟩

open Classical in
/-- **Pruning keeps what is reachable.** In a module with a program entry point the functions kept
are, in their order, those the entry points and the externs reach through names; so every function
that a kept one names is kept. A module without an entry point is left whole. -/
theorem pruneUnreachable_keeps (module : IRModule) :
    ∃ kept, pruneUnreachable module =
        some ({ module with functions := kept }, module.functions.length - kept.length) ∧
      if module.functions.any pruneIsProgramEntry then
        kept = (module.functions.zipIdx.filter fun f => Reached module f.2).map (·.1) ∧
          ∀ f ∈ kept, ∀ g ∈ module.functions, Names f g.name → g ∈ kept
      else kept = module.functions := by
  unfold pruneUnreachable
  split_ifs with hentry
  · obtain ⟨slots, st, hslots, hloop, hreached⟩ := exists_pruneLoop module
    let kept := (module.functions.zipIdx.filter fun f => st.reached.getD f.2 false).map (·.1)
    have hkept : kept = (module.functions.zipIdx.filter fun f => Reached module f.2).map (·.1) := by
      have hfilter : ∀ f ∈ module.functions.zipIdx,
          st.reached.getD f.2 false = decide (Reached module f.2) := by
        intro f _
        rw [Bool.eq_iff_iff, decide_eq_true_iff, hreached]
      exact congrArg _ (List.filter_congr hfilter)
    have hmem : ∀ f, f ∈ kept ↔ ∃ i, module.functions[i]? = some f ∧ Reached module i := by
      intro f
      simp only [hkept, List.mem_map, List.mem_filter, Prod.exists, List.mem_zipIdx_iff_getElem?,
        decide_eq_true_eq]
      constructor
      · rintro ⟨f, i, ⟨hf, hi⟩, rfl⟩
        exact ⟨i, hf, hi⟩
      · rintro ⟨i, hf, hi⟩
        exact ⟨f, i, ⟨hf, hi⟩, rfl⟩
    refine ⟨kept, ?_, hkept, fun f hf g hg hname => ?_⟩
    · simp only [hslots, hloop, bind, Option.bind, pure, kept]
    · obtain ⟨i, hi, hreach⟩ := (hmem f).mp hf
      obtain ⟨j, hj⟩ := List.getElem?_of_mem hg
      exact (hmem g).mpr ⟨j, hj, .named hreach hi hj hname⟩
  · exact ⟨module.functions, by simp, rfl⟩

/-- A library has no entry point and is left whole, though nothing is reachable; and a function
whose name is empty is not found, though an operand spells its name. -/
theorem pruneUnreachable_whole :
    pruneUnreachable { initIRModule with functions := [initIRFunction "helper"] } =
        some ({ initIRModule with functions := [initIRFunction "helper"] }, 0) ∧
      (∀ i, ¬ Reached { initIRModule with functions := [initIRFunction "helper"] } i) ∧
      (pruneUnreachable { initIRModule with functions :=
        [{ initIRFunction "main" with instructions :=
          [{ irInitInstr .ret with operand1 := irString "" }] }, initIRFunction ""] }).map (·.2) =
        some 1 := by
  refine ⟨by decide, fun i hi => ?_, by decide⟩
  induction hi with
  | @root i f hf hroot =>
    have hfun : f = initIRFunction "helper" := List.mem_singleton.mp (List.mem_of_getElem? hf)
    subst hfun
    exact absurd hroot (by decide)
  | named _ _ _ _ ih => exact ih

end IR
