import Mathlib.Order.Nat
import Orbit.Tir.Proof.Walk

/-!
# Blocks of lowered functions

What lowering a statement adds to a function (`Built`): every block that it opens but the last ends in
one terminator, its jumps stay among its blocks, and control reaches the last block only if the
statement can be run through. A branch or a loop body is closed by a jump behind it (`Sealed`).
-/

namespace Tir

open Front (ASTNode)

/-! ## Straight code -/

/-- An instruction of a block that does not leave it. -/
def Plain (b : Nat) (i : TirInstruction) : Prop :=
  i.blockId = b ∧ i.targets = [] ∧ i.isTerminator = false

/-- What a step emits is plain. -/
def Straight (b : Nat) (s s' : Lowering) : Prop :=
  ∃ new, s'.function.instructions = s.function.instructions ++ new ∧ ∀ i ∈ new, Plain b i

theorem Straight.refl (b : Nat) (s : Lowering) : Straight b s s :=
  ⟨[], (List.append_nil _).symm, fun _ h => absurd h List.not_mem_nil⟩

theorem Straight.trans {b : Nat} {s s' s'' : Lowering} (h : Straight b s s')
    (h' : Straight b s' s'') : Straight b s s'' := by
  obtain ⟨new, hnew, hp⟩ := h
  obtain ⟨new', hnew', hp'⟩ := h'
  refine ⟨new ++ new', by rw [hnew', hnew, List.append_assoc], fun i hi => ?_⟩
  rcases List.mem_append.mp hi with hi | hi
  · exact hp i hi
  · exact hp' i hi

theorem straight_errorIf (b : Nat) (s : Lowering) (p : Prop) [Decidable p] (code message : String) :
    Straight b s (s.errorIf p code message) :=
  ⟨[], by rw [Lowering.function_errorIf, List.append_nil], fun _ h => absurd h List.not_mem_nil⟩

theorem straight_emit {opcode : String} (hop : opcode ∉ terminators) (b : Nat) (s : Lowering)
    (typeName : String) {operands : List TirOperand}
    (ho : operands.filterMap TirOperand.block? = []) :
    Straight b s (s.emit b opcode typeName operands).2 := by
  refine ⟨_, rfl, fun i hi => ?_⟩
  rw [List.mem_singleton.mp hi]
  exact ⟨rfl, ho, decide_eq_false hop⟩

theorem short_not_terminator {op : String} (h : op.length ≤ 2) : op ∉ terminators := by
  intro hm
  simp only [terminators, List.mem_cons, List.not_mem_nil, or_false] at hm
  rcases hm with rfl | rfl | rfl <;> exact absurd h (by decide)

theorem unary_not_terminator (op : String) : "unary." ++ op ∉ terminators := by
  intro hm
  simp only [terminators, List.mem_cons, List.not_mem_nil, or_false] at hm
  rcases hm with h | h | h <;>
    exact absurd (congrArg String.toList h) (by simp)

/-- Expressions and arguments of a shape are straight code; no argument is a block. -/
theorem straight_both (b : Nat) (Γ : List TirBinding) :
    (∀ node : ASTNode, wellShaped node = true → ∀ s : Lowering,
      Straight b s (lowerExpression b Γ node s).2) ∧
    ∀ nodes : List ASTNode, allWellShaped nodes = true → ∀ s : Lowering,
      Straight b s (lowerArguments b Γ nodes s).2 ∧
        (lowerArguments b Γ nodes s).1.filterMap TirOperand.block? = [] := by
  apply expression_induct
  constructor
  case literal =>
    intro valType text _ s
    rw [lowerExpression]
    split
    · exact (straight_errorIf b s _ _ _).trans (straight_emit (by decide) b _ _ rfl)
    · exact straight_emit (by decide) b s _ rfl
  case binaryOp =>
    intro op lhs rhs line col hl hr hs s
    rw [wellShaped, Bool.and_eq_true, Bool.and_eq_true, decide_eq_true_eq] at hs
    rw [lowerExpression]
    exact (((hl hs.1.2 s).trans (hr hs.2 _)).trans (straight_errorIf b _ _ _ _)).trans
      (straight_emit (short_not_terminator hs.1.1) b _ _ rfl)
  case unaryOp =>
    intro op operand hv hs s
    rw [lowerExpression]
    exact ((hv hs s).trans (straight_errorIf b _ _ _ _)).trans
      (straight_emit (unary_not_terminator op) b _ _ rfl)
  case memberAccess =>
    intro object field line col hv hs s
    rw [lowerExpression]
    exact ((hv hs s).trans (straight_errorIf b _ _ _ _)).trans
      (straight_emit (by decide) b _ _ rfl)
  case call =>
    intro callee args line col hv ha hs s
    rw [wellShaped, Bool.and_eq_true] at hs
    rw [lowerExpression]
    exact (((hv hs.1 s).trans (ha hs.2 _).1).trans (straight_errorIf b _ _ _ _)).trans
      (straight_emit (by decide) b _ _ (ha hs.2 _).2)
  case other =>
    intro node hnode _ s
    rw [lowerExpression_other hnode]
    exact ⟨[], (List.append_nil _).symm, fun _ h => absurd h List.not_mem_nil⟩
  case nil => exact fun _ s => ⟨Straight.refl b s, rfl⟩
  case cons =>
    intro node nodes hv ha hs s
    rw [allWellShaped, Bool.and_eq_true] at hs
    rw [lowerArguments]
    exact ⟨(hv hs.1 s).trans (ha hs.2 _).1, (ha hs.2 _).2⟩

theorem straight_expression {node : ASTNode} (h : wellShaped node = true) (b : Nat)
    (Γ : List TirBinding) (s : Lowering) : Straight b s (lowerExpression b Γ node s).2 :=
  (straight_both b Γ).1 node h s

/-! ## Blocks of instructions -/

theorem blockOf_append (b : Nat) (is js : List TirInstruction) :
    blockOf b (is ++ js) = blockOf b is ++ blockOf b js := List.filter_append ..

theorem blockOf_eq_nil {b : Nat} {l : List TirInstruction} (h : ∀ i ∈ l, i.blockId ≠ b) :
    blockOf b l = [] :=
  List.filter_eq_nil_iff.mpr fun i hi => by simpa using h i hi

theorem blockOf_eq_self {b : Nat} {l : List TirInstruction} (h : ∀ i ∈ l, i.blockId = b) :
    blockOf b l = l :=
  List.filter_eq_self.mpr fun i hi => by simpa using h i hi

theorem goes_append {is js : List TirInstruction} {c t : Nat} :
    Goes (is ++ js) c t ↔ Goes is c t ∨ Goes js c t := by
  rw [Goes, Goes, Goes, blockOf_append]
  constructor
  · rintro ⟨i, hi, ht⟩
    rcases List.mem_append.mp hi with hi | hi
    · exact .inl ⟨i, hi, ht⟩
    · exact .inr ⟨i, hi, ht⟩
  · rintro (⟨i, hi, ht⟩ | ⟨i, hi, ht⟩)
    · exact ⟨i, List.mem_append_left _ hi, ht⟩
    · exact ⟨i, List.mem_append_right _ hi, ht⟩

theorem Goes.mem {is : List TirInstruction} {c t : Nat} (h : Goes is c t) :
    ∃ i ∈ is, i.blockId = c ∧ t ∈ i.targets := by
  obtain ⟨i, hi, ht⟩ := h
  obtain ⟨hmem, hb⟩ := List.mem_filter.mp hi
  exact ⟨i, hmem, by simpa using hb, ht⟩

/-- A terminator behind plain instructions. -/
theorem terminated_concat {b : Nat} {l : List TirInstruction} {i : TirInstruction}
    (h : ∀ j ∈ l, Plain b j) (hi : i.isTerminator = true) : Terminated (l ++ [i]) :=
  ⟨l, i, rfl, hi, fun j hj => (h j hj).2.2⟩

/-! ## Statements -/

/-- A block that a statement starts in, or one of those that it creates. -/
def Region (b n n' c : Nat) : Prop := c = b ∨ (n ≤ c ∧ c < n')

/-- What lowering a statement from block `b` adds, with the blocks from `n` up to `n'` created, and
`r` the block that it ends in. -/
structure Built (b : Nat) (r : Option Nat) (falls : Bool) (n n' : Nat)
    (new : List TirInstruction) : Prop where
  le : n ≤ n'
  blocks : ∀ i ∈ new, Region b n n' i.blockId
  targets : ∀ i ∈ new, ∀ t ∈ i.targets, n ≤ t ∧ t < n'
  last : ∀ k, r = some k → Region b n n' k
  closed : ∀ c, Region b n n' c → r ≠ some c → Terminated (blockOf c new)
  opened : ∀ k, r = some k → ∀ i ∈ blockOf k new, Plain k i
  reach : ∃ S : Nat → Prop, S b ∧ (∀ c, S c → Region b n n' c) ∧
    (∀ c t, S c → Goes new c t → S t) ∧ (falls = false → ∀ k, r = some k → ¬ S k)

/-- What a branch or a loop body adds, with the jump to `target` behind it. -/
structure Sealed (b n n' target : Nat) (falls : Bool) (new : List TirInstruction) : Prop where
  le : n ≤ n'
  blocks : ∀ i ∈ new, Region b n n' i.blockId
  targets : ∀ i ∈ new, ∀ t ∈ i.targets, t = target ∨ (n ≤ t ∧ t < n')
  closed : ∀ c, Region b n n' c → Terminated (blockOf c new)
  reach : ∃ S : Nat → Prop, S b ∧ (∀ c, S c → Region b n n' c) ∧
    ∀ c t, S c → Goes new c t → S t ∨ (t = target ∧ falls = true)

theorem blockOf_outside {b n n' c : Nat} {is : List TirInstruction}
    (his : ∀ i ∈ is, Region b n n' i.blockId) (h : ¬ Region b n n' c) : blockOf c is = [] :=
  blockOf_eq_nil fun i hi hc => h (hc ▸ his i hi)

theorem goes_outside {b n n' c t : Nat} {is : List TirInstruction}
    (his : ∀ i ∈ is, Region b n n' i.blockId) (h : ¬ Region b n n' c) : ¬ Goes is c t := by
  rintro ⟨i, hi, -⟩
  rw [blockOf_outside his h] at hi
  exact absurd hi List.not_mem_nil

theorem plain_no_goes {b c t : Nat} {is : List TirInstruction} (h : ∀ i ∈ is, Plain b i) :
    ¬ Goes is c t := by
  intro hg
  obtain ⟨i, hi, -, ht⟩ := hg.mem
  rw [(h i hi).2.1] at ht
  exact absurd ht List.not_mem_nil

/-- Straight code stays in its block. -/
theorem built_plain {b : Nat} (n : Nat) {is : List TirInstruction} (h : ∀ i ∈ is, Plain b i) :
    Built b (some b) true n n is where
  le := le_rfl
  blocks i hi := .inl (h i hi).1
  targets i hi t ht := by
    rw [(h i hi).2.1] at ht
    exact absurd ht List.not_mem_nil
  last k hk := .inl (Option.some.inj hk).symm
  closed c hc hne := by
    rcases hc with rfl | hc
    · exact absurd rfl hne
    · omega
  opened k hk i hi := by
    obtain rfl := Option.some.inj hk
    exact h i (List.mem_filter.mp hi).1
  reach := ⟨fun c => c = b, rfl, fun c hc => .inl hc, fun c t _ hg => absurd hg (plain_no_goes h),
    fun hf => absurd hf (by decide)⟩

/-- A return ends its block. -/
theorem built_return {b : Nat} (n : Nat) {is : List TirInstruction} {i : TirInstruction}
    (h : ∀ j ∈ is, Plain b j) (hi : i.blockId = b) (hti : i.isTerminator = true)
    (hta : i.targets = []) : Built b none false n n (is ++ [i]) := by
  have hall : ∀ j ∈ is ++ [i], j.blockId = b ∧ j.targets = [] := by
    intro j hj
    rcases List.mem_append.mp hj with hj | hj
    · exact ⟨(h j hj).1, (h j hj).2.1⟩
    · rw [List.mem_singleton.mp hj]
      exact ⟨hi, hta⟩
  have hno : ∀ {j t}, j ∈ is ++ [i] → t ∉ j.targets := by
    intro j t hj ht
    rw [(hall j hj).2] at ht
    exact absurd ht List.not_mem_nil
  refine ⟨le_rfl, ?_, ?_, ?_, ?_, ?_, ?_⟩
  · exact fun j hj => .inl (hall j hj).1
  · exact fun j hj t ht => absurd ht (hno hj)
  · exact fun k hk => nomatch hk
  · rintro c (rfl | hc) -
    · rw [blockOf_eq_self fun j hj => (hall j hj).1]
      exact terminated_concat h hti
    · omega
  · exact fun k hk => nomatch hk
  · refine ⟨fun c => c = b, rfl, fun c hc => .inl hc, fun c t _ hg => ?_, fun _ k hk => nomatch hk⟩
    obtain ⟨j, hj, -, ht⟩ := hg.mem
    exact absurd ht (hno hj)

/-- **One statement behind another.** -/
theorem built_seq {b c n n₁ n₂ : Nat} {r : Option Nat} {f₁ f₂ : Bool}
    {new₁ new₂ : List TirInstruction} (h₁ : Built b (some c) f₁ n n₁ new₁)
    (h₂ : Built c r f₂ n₁ n₂ new₂) (hb : b < n) : Built b r (f₁ && f₂) n n₂ (new₁ ++ new₂) := by
  have hle := h₁.le
  have hle' := h₂.le
  have hc : Region b n n₁ c := h₁.last c rfl
  have hregion : ∀ {d : Nat}, Region c n₁ n₂ d → Region b n n₂ d := by
    rintro d (rfl | hd)
    · rcases hc with hc | hc
      · exact .inl hc
      · exact .inr (by omega)
    · exact .inr (by omega)
  have hregion₁ : ∀ {d : Nat}, Region b n n₁ d → Region b n n₂ d := by
    rintro d (hd | hd)
    · exact .inl hd
    · exact .inr (by omega)
  have hcn : c < n₁ := by
    rcases hc with rfl | hc
    · omega
    · omega
  -- the blocks of the first statement other than its last get nothing from the second
  have hsplit : ∀ {d : Nat}, Region b n n₁ d → d ≠ c → blockOf d new₂ = [] := by
    intro d hd hne
    refine blockOf_eq_nil fun i hi hdi => ?_
    rcases h₂.blocks i hi with h | h
    · exact hne (hdi.symm.trans h)
    · rcases hd with hd | hd <;> omega
  have hsplit' : ∀ {d : Nat}, n₁ ≤ d → blockOf d new₁ = [] := by
    intro d hd
    refine blockOf_eq_nil fun i hi hdi => ?_
    rcases h₁.blocks i hi with h | h <;> omega
  refine ⟨hle.trans hle', fun i hi => ?_, fun i hi t ht => ?_, fun k hk => hregion (h₂.last k hk),
    fun d hd hne => ?_, fun k hk => ?_, ?_⟩
  · rcases List.mem_append.mp hi with hi | hi
    · exact hregion₁ (h₁.blocks i hi)
    · exact hregion (h₂.blocks i hi)
  · rcases List.mem_append.mp hi with hi | hi
    · have := h₁.targets i hi t ht
      omega
    · have := h₂.targets i hi t ht
      omega
  · rw [blockOf_append]
    by_cases hdc : d = c
    · subst hdc
      have hopen := h₁.opened d rfl
      obtain ⟨before, last, hbl, hlast, hbefore⟩ := h₂.closed d (.inl rfl) hne
      refine ⟨blockOf d new₁ ++ before, last, by rw [hbl, List.append_assoc], hlast, fun i hi => ?_⟩
      rcases List.mem_append.mp hi with hi | hi
      · exact (hopen i hi).2.2
      · exact hbefore i hi
    · by_cases hd₁ : Region b n n₁ d
      · rw [hsplit hd₁ hdc, List.append_nil]
        exact h₁.closed d hd₁ (fun h => hdc (Option.some.inj h).symm)
      · have hge : n₁ ≤ d ∧ d < n₂ := by
          rcases hd with hd | hd
          · exact absurd (.inl hd) hd₁
          · refine ⟨?_, hd.2⟩
            by_contra hlt
            exact hd₁ (.inr ⟨hd.1, by omega⟩)
        rw [hsplit' hge.1, List.nil_append]
        exact h₂.closed d (.inr hge) hne
  · rw [blockOf_append]
    have hk₂ := h₂.opened k hk
    rcases h₂.last k hk with rfl | hk'
    · intro i hi
      rcases List.mem_append.mp hi with hi | hi
      · exact h₁.opened k rfl i hi
      · exact hk₂ i hi
    · rw [hsplit' hk'.1]
      exact hk₂
  · obtain ⟨S, hSb, hSr, hSg, hSf⟩ := h₁.reach
    obtain ⟨T, hTc, hTr, hTg, hTf⟩ := h₂.reach
    cases f₁ with
    | false =>
      refine ⟨S, hSb, fun d hd => hregion₁ (hSr d hd), fun d t hd hg => ?_, fun _ k hk hS => ?_⟩
      · rcases goes_append.mp hg with hg | hg
        · exact hSg d t hd hg
        · obtain ⟨i, hi, hid, -⟩ := hg.mem
          have hnil := hsplit (hSr d hd) (fun h => hSf rfl c rfl (h ▸ hd))
          exact absurd (List.mem_filter.mpr ⟨hi, by simpa using hid⟩) (hnil ▸ List.not_mem_nil)
      · rcases h₂.last k hk with rfl | hk'
        · exact hSf rfl k rfl hS
        · rcases hSr k hS with h | h <;> omega
    | true =>
      rw [Bool.true_and]
      refine ⟨fun d => S d ∨ T d, .inl hSb, ?_, ?_, ?_⟩
      · rintro d (hd | hd)
        · exact hregion₁ (hSr d hd)
        · exact hregion (hTr d hd)
      · rintro d t hd hg
        rcases goes_append.mp hg with hg | hg
        · obtain ⟨i, hi, hid, ht⟩ := hg.mem
          rcases hd with hd | hd
          · exact .inl (hSg d t hd hg)
          · have hdc : d = c := by
              rcases hTr d hd with hd | hd
              · exact hd
              · rcases h₁.blocks i hi with h | h <;> omega
            -- the last block of the first statement does not leave it
            have hmem : i ∈ blockOf c new₁ := List.mem_filter.mpr ⟨hi, by simpa [← hdc] using hid⟩
            rw [(h₁.opened c rfl i hmem).2.1] at ht
            exact absurd ht List.not_mem_nil
        · rcases hd with hd | hd
          · by_cases hdc : d = c
            · exact .inr (hTg d t (hdc ▸ hTc) hg)
            · obtain ⟨i, hi, hid, -⟩ := hg.mem
              have hmem : i ∈ blockOf d new₂ := List.mem_filter.mpr ⟨hi, by simpa using hid⟩
              rw [hsplit (hSr d hd) hdc] at hmem
              exact absurd hmem List.not_mem_nil
          · exact .inr (hTg d t hd hg)
      · rintro hf k hk (hS | hT)
        · rcases h₂.last k hk with rfl | hk'
          · exact hTf hf k hk hTc
          · rcases hSr k hS with h | h <;> omega
        · exact hTf hf k hk hT

/-- The jump behind a statement, if control is left in a block. -/
def Jumps (r : Option Nat) (target : Nat) (jumps : List TirInstruction) : Prop :=
  match r with
  | none => jumps = []
  | some k => ∃ j, jumps = [j] ∧ j.blockId = k ∧ j.isTerminator = true ∧ j.targets = [target]

/-- A statement with the jump behind it is closed. -/
theorem sealed_of_built {b n n' target : Nat} {r : Option Nat} {f : Bool}
    {new jumps : List TirInstruction} (h : Built b r f n n' new) (hj : Jumps r target jumps) :
    Sealed b n n' target f (new ++ jumps) := by
  cases r with
  | none =>
    obtain rfl : jumps = [] := hj
    rw [List.append_nil]
    obtain ⟨S, hSb, hSr, hSg, -⟩ := h.reach
    exact ⟨h.le, h.blocks, fun i hi t ht => .inr (h.targets i hi t ht),
      fun c hc => h.closed c hc (fun e => nomatch e), S, hSb, hSr,
      fun c t hc hg => .inl (hSg c t hc hg)⟩
  | some k =>
    obtain ⟨j, rfl, hjb, hjt, hja⟩ := hj
    have hk := h.last k rfl
    refine ⟨h.le, fun i hi => ?_, fun i hi t ht => ?_, fun c hc => ?_, ?_⟩
    · rcases List.mem_append.mp hi with hi | hi
      · exact h.blocks i hi
      · rw [List.mem_singleton.mp hi, hjb]
        exact hk
    · rcases List.mem_append.mp hi with hi | hi
      · exact .inr (h.targets i hi t ht)
      · rw [List.mem_singleton.mp hi, hja] at ht
        exact .inl (List.mem_singleton.mp ht)
    · rw [blockOf_append]
      by_cases hck : c = k
      · subst hck
        rw [blockOf_eq_self (l := [j]) (fun i hi => by rw [List.mem_singleton.mp hi, hjb])]
        exact terminated_concat (h.opened c rfl) hjt
      · rw [blockOf_eq_nil (l := [j]) (fun i hi => by
          rw [List.mem_singleton.mp hi, hjb]
          exact fun e => hck e.symm), List.append_nil]
        exact h.closed c hc fun e => hck (Option.some.inj e).symm
    · obtain ⟨S, hSb, hSr, hSg, hSf⟩ := h.reach
      refine ⟨S, hSb, hSr, fun c t hc hg => ?_⟩
      rcases goes_append.mp hg with hg | hg
      · exact .inl (hSg c t hc hg)
      · obtain ⟨i, hi, hic, ht⟩ := hg.mem
        rw [List.mem_singleton.mp hi] at hic ht
        rw [hja] at ht
        refine .inr ⟨List.mem_singleton.mp ht, ?_⟩
        cases f with
        | true => rfl
        | false =>
          have hck : c = k := hic.symm.trans hjb
          exact absurd (hck ▸ hc) (hSf rfl k rfl)

/-- **An `if`**: a head that branches to two sealed branches, and the block that they jump to. -/
theorem built_if {b n n₁ n₂ : Nat} {f₁ f₂ : Bool} {head new₁ new₂ : List TirInstruction}
    {branch : TirInstruction} (hb : b < n) (hh : ∀ i ∈ head, Plain b i)
    (hbb : branch.blockId = b) (hbt : branch.isTerminator = true)
    (hba : branch.targets = [n, n + 1]) (h₁ : Sealed n (n + 3) n₁ (n + 2) f₁ new₁)
    (h₂ : Sealed (n + 1) n₁ n₂ (n + 2) f₂ new₂) :
    Built b (some (n + 2)) (f₁ || f₂) n n₂ (head ++ [branch] ++ (new₁ ++ new₂)) := by
  have hle₁ := h₁.le
  have hle₂ := h₂.le
  have hhead : ∀ i ∈ head ++ [branch], i.blockId = b := by
    intro i hi
    rcases List.mem_append.mp hi with hi | hi
    · exact (hh i hi).1
    · rw [List.mem_singleton.mp hi, hbb]
  have hgoes : ∀ {c t}, Goes (head ++ [branch]) c t → c = b ∧ (t = n ∨ t = n + 1) := by
    rintro c t hg
    obtain ⟨i, hi, hic, ht⟩ := hg.mem
    refine ⟨hic.symm.trans (hhead i hi), ?_⟩
    rcases List.mem_append.mp hi with hi | hi
    · rw [(hh i hi).2.1] at ht
      exact absurd ht List.not_mem_nil
    · rw [List.mem_singleton.mp hi, hba] at ht
      simpa using ht
  have hsplit : ∀ c, blockOf c (head ++ [branch] ++ (new₁ ++ new₂)) =
      blockOf c (head ++ [branch]) ++ (blockOf c new₁ ++ blockOf c new₂) := by
    intro c
    rw [blockOf_append, blockOf_append c new₁ new₂]
  have hnone : ∀ {c}, c ≠ b → blockOf c (head ++ [branch]) = [] :=
    fun hc => blockOf_eq_nil fun i hi hic => hc (hic.symm.trans (hhead i hi))
  refine ⟨by omega, fun i hi => ?_, fun i hi t ht => ?_, fun k hk => ?_, fun c hc hne => ?_,
    fun k hk => ?_, ?_⟩
  · rcases List.mem_append.mp hi with hi | hi
    · exact .inl (hhead i hi)
    · rcases List.mem_append.mp hi with hi | hi
      · have := h₁.blocks i hi
        unfold Region at this ⊢
        omega
      · have := h₂.blocks i hi
        unfold Region at this ⊢
        omega
  · rcases List.mem_append.mp hi with hi | hi
    · have hg : Goes (head ++ [branch]) b t :=
        ⟨i, List.mem_filter.mpr ⟨hi, by simpa using hhead i hi⟩, ht⟩
      have := (hgoes hg).2
      omega
    · rcases List.mem_append.mp hi with hi | hi
      · have := h₁.targets i hi t ht
        omega
      · have := h₂.targets i hi t ht
        omega
  · obtain rfl := Option.some.inj hk
    exact .inr (by omega)
  · have hne : c ≠ n + 2 := fun e => hne (congrArg some e.symm)
    rw [hsplit]
    by_cases hcb : c = b
    · rw [hcb, blockOf_eq_self hhead, blockOf_outside h₁.blocks (by unfold Region; omega),
        blockOf_outside h₂.blocks (by unfold Region; omega), List.append_nil, List.append_nil]
      exact terminated_concat hh hbt
    · rw [hnone hcb, List.nil_append]
      by_cases hc₁ : Region n (n + 3) n₁ c
      · rw [blockOf_outside h₂.blocks (by unfold Region at hc₁ ⊢; omega), List.append_nil]
        exact h₁.closed c hc₁
      · rw [blockOf_outside h₁.blocks hc₁, List.nil_append]
        exact h₂.closed c (by unfold Region at hc hc₁ ⊢; omega)
  · obtain rfl := Option.some.inj hk
    rw [hsplit, hnone (by omega), blockOf_outside h₁.blocks (by unfold Region; omega),
      blockOf_outside h₂.blocks (by unfold Region; omega)]
    exact fun i hi => absurd hi List.not_mem_nil
  · obtain ⟨S, hSb, hSr, hSg⟩ := h₁.reach
    obtain ⟨T, hTb, hTr, hTg⟩ := h₂.reach
    refine ⟨fun c => c = b ∨ S c ∨ T c ∨ (c = n + 2 ∧ (f₁ || f₂) = true), .inl rfl, ?_, ?_, ?_⟩
    · rintro c (hc | hc | hc | ⟨hc, -⟩)
      · exact .inl hc
      · have := hSr c hc
        unfold Region at this ⊢
        omega
      · have := hTr c hc
        unfold Region at this ⊢
        omega
      · exact .inr (by omega)
    · intro c t hc hg
      rcases goes_append.mp hg with hg | hg
      · rcases (hgoes hg).2 with rfl | rfl
        · exact .inr (.inl hSb)
        · exact .inr (.inr (.inl hTb))
      · rcases goes_append.mp hg with hg | hg
        · have hr : Region n (n + 3) n₁ c := by
            by_contra hr
            exact goes_outside h₁.blocks hr hg
          rcases hc with hc | hc | hc | ⟨hc, -⟩
          · unfold Region at hr
            omega
          · rcases hSg c t hc hg with ht | ⟨ht, hf⟩
            · exact .inr (.inl ht)
            · exact .inr (.inr (.inr ⟨ht, by rw [hf, Bool.true_or]⟩))
          · have := hTr c hc
            unfold Region at this hr
            omega
          · unfold Region at hr
            omega
        · have hr : Region (n + 1) n₁ n₂ c := by
            by_contra hr
            exact goes_outside h₂.blocks hr hg
          rcases hc with hc | hc | hc | ⟨hc, -⟩
          · unfold Region at hr
            omega
          · have := hSr c hc
            unfold Region at this hr
            omega
          · rcases hTg c t hc hg with ht | ⟨ht, hf⟩
            · exact .inr (.inr (.inl ht))
            · exact .inr (.inr (.inr ⟨ht, by rw [hf, Bool.or_true]⟩))
          · unfold Region at hr
            omega
    · rintro hf k hk (hc | hc | hc | ⟨-, hc⟩)
      · obtain rfl := Option.some.inj hk
        omega
      · obtain rfl := Option.some.inj hk
        have := hSr _ hc
        unfold Region at this
        omega
      · obtain rfl := Option.some.inj hk
        have := hTr _ hc
        unfold Region at this
        omega
      · rw [hf] at hc
        exact absurd hc (by decide)

/-- **A `while`**: a jump to a condition that branches to a sealed body, and the block behind it. -/
theorem built_while {b n n₁ : Nat} {f : Bool} {head new : List TirInstruction}
    {jump branch : TirInstruction} (hb : b < n) (hjb : jump.blockId = b)
    (hjt : jump.isTerminator = true) (hja : jump.targets = [n]) (hh : ∀ i ∈ head, Plain n i)
    (hbb : branch.blockId = n) (hbt : branch.isTerminator = true)
    (hba : branch.targets = [n + 1, n + 2]) (h : Sealed (n + 1) (n + 3) n₁ n f new) :
    Built b (some (n + 2)) true n n₁ ([jump] ++ (head ++ [branch]) ++ new) := by
  have hle := h.le
  have hhead : ∀ i ∈ head ++ [branch], i.blockId = n := by
    intro i hi
    rcases List.mem_append.mp hi with hi | hi
    · exact (hh i hi).1
    · rw [List.mem_singleton.mp hi, hbb]
  have hjump : ∀ i ∈ [jump], i.blockId = b := fun i hi => by rw [List.mem_singleton.mp hi, hjb]
  have hsplit : ∀ c, blockOf c ([jump] ++ (head ++ [branch]) ++ new) =
      blockOf c [jump] ++ blockOf c (head ++ [branch]) ++ blockOf c new := by
    intro c
    rw [blockOf_append, blockOf_append c [jump]]
  have hjnone : ∀ {c}, c ≠ b → blockOf c [jump] = [] :=
    fun hc => blockOf_eq_nil fun i hi hic => hc (hic.symm.trans (hjump i hi))
  have hhnone : ∀ {c}, c ≠ n → blockOf c (head ++ [branch]) = [] :=
    fun hc => blockOf_eq_nil fun i hi hic => hc (hic.symm.trans (hhead i hi))
  have htargets : ∀ i ∈ [jump] ++ (head ++ [branch]) ++ new, ∀ t ∈ i.targets, n ≤ t ∧ t < n₁ := by
    intro i hi t ht
    rcases List.mem_append.mp hi with hi | hi
    · rcases List.mem_append.mp hi with hi | hi
      · rw [List.mem_singleton.mp hi, hja, List.mem_singleton] at ht
        omega
      · rcases List.mem_append.mp hi with hi | hi
        · rw [(hh i hi).2.1] at ht
          exact absurd ht List.not_mem_nil
        · rw [List.mem_singleton.mp hi, hba] at ht
          simp only [List.mem_cons, List.not_mem_nil, or_false] at ht
          omega
    · have := h.targets i hi t ht
      omega
  refine ⟨by omega, fun i hi => ?_, htargets, fun k hk => ?_, fun c hc hne => ?_, fun k hk => ?_,
    Region b n n₁, .inl rfl, fun c hc => hc, fun c t _ hg => ?_, fun hf => absurd hf (by decide)⟩
  · rcases List.mem_append.mp hi with hi | hi
    · rcases List.mem_append.mp hi with hi | hi
      · exact .inl (hjump i hi)
      · rw [hhead i hi]
        exact .inr (by omega)
    · have := h.blocks i hi
      unfold Region at this ⊢
      omega
  · obtain rfl := Option.some.inj hk
    exact .inr (by omega)
  · have hne : c ≠ n + 2 := fun e => hne (congrArg some e.symm)
    rw [hsplit]
    by_cases hcb : c = b
    · rw [hcb, blockOf_eq_self hjump, hhnone (by omega),
        blockOf_outside h.blocks (by unfold Region; omega), List.append_nil, List.append_nil]
      exact terminated_concat (l := []) (b := b) (fun i hi => absurd hi List.not_mem_nil) hjt
    · rw [hjnone hcb, List.nil_append]
      by_cases hcn : c = n
      · rw [hcn, blockOf_eq_self hhead, blockOf_outside h.blocks (by unfold Region; omega),
          List.append_nil]
        exact terminated_concat hh hbt
      · rw [hhnone hcn, List.nil_append]
        exact h.closed c (by unfold Region at hc ⊢; omega)
  · obtain rfl := Option.some.inj hk
    rw [hsplit, hjnone (by omega), hhnone (by omega),
      blockOf_outside h.blocks (by unfold Region; omega)]
    exact fun i hi => absurd hi List.not_mem_nil
  · obtain ⟨i, hi, -, ht⟩ := hg.mem
    exact .inr (htargets i hi t ht)

/-! ## The lowering -/

theorem jumps_jumpTo (target : Nat) (r : Option Nat) (s : Lowering) :
    ∃ jumps, (jumpTo target r s).function.instructions = s.function.instructions ++ jumps ∧
      Jumps r target jumps := by
  cases r with
  | none => exact ⟨[], (List.append_nil _).symm, rfl⟩
  | some k => exact ⟨_, rfl, _, rfl, rfl, rfl, rfl⟩

theorem nextBlockId_jumpTo (target : Nat) (r : Option Nat) (s : Lowering) :
    (jumpTo target r s).function.nextBlockId = s.function.nextBlockId := by
  cases r <;> rfl

/-- The code of an `if` up to its branch. -/
theorem emits_ifHead {condition : ASTNode} (h : wellShaped condition = true) (b : Nat)
    (Γ : List TirBinding) (s : Lowering) : ∃ head branch,
      (ifHead condition b Γ s).function.instructions =
        s.function.instructions ++ (head ++ [branch]) ∧
      (ifHead condition b Γ s).function.nextBlockId = s.function.nextBlockId + 3 ∧
      (∀ i ∈ head, Plain b i) ∧ branch.blockId = b ∧ branch.isTerminator = true ∧
      branch.targets = [s.function.nextBlockId, s.function.nextBlockId + 1] := by
  obtain ⟨head, hhead, hplain⟩ := (straight_expression h b Γ s).trans (straight_errorIf b
    (lowerExpression b Γ condition s).2 (typeOfExpression Γ condition ≠ "bool") "E2100"
    "if condition must have type bool")
  have hn : ((lowerExpression b Γ condition s).2.errorIf (typeOfExpression Γ condition ≠ "bool")
      "E2100" "if condition must have type bool").function.nextBlockId =
        s.function.nextBlockId := by
    rw [Lowering.function_errorIf, nextBlockId_expression]
  refine ⟨head, _, (congrArg (· ++ _) hhead).trans (List.append_assoc ..),
    congrArg (· + 3) hn, hplain, rfl, rfl, rfl⟩

/-- The code of a `while` up to its branch. -/
theorem emits_whileHead {condition : ASTNode} (h : wellShaped condition = true) (b : Nat)
    (Γ : List TirBinding) (s : Lowering) : ∃ jump head branch,
      (whileHead condition b Γ s).function.instructions =
        s.function.instructions ++ ([jump] ++ (head ++ [branch])) ∧
      (whileHead condition b Γ s).function.nextBlockId = s.function.nextBlockId + 3 ∧
      jump.blockId = b ∧ jump.isTerminator = true ∧ jump.targets = [s.function.nextBlockId] ∧
      (∀ i ∈ head, Plain s.function.nextBlockId i) ∧ branch.blockId = s.function.nextBlockId ∧
      branch.isTerminator = true ∧
      branch.targets = [s.function.nextBlockId + 1, s.function.nextBlockId + 2] := by
  obtain ⟨head, hhead, hplain⟩ := (straight_expression h s.function.nextBlockId Γ
    ((createBlocks s).emit b "jump" "unit" [.block s.function.nextBlockId]).2).trans
      (straight_errorIf s.function.nextBlockId _ (typeOfExpression Γ condition ≠ "bool") "E2101"
        "while condition must have type bool")
  have hn : ((lowerExpression s.function.nextBlockId Γ condition
      ((createBlocks s).emit b "jump" "unit" [.block s.function.nextBlockId]).2).2.errorIf
        (typeOfExpression Γ condition ≠ "bool") "E2101"
        "while condition must have type bool").function.nextBlockId =
          s.function.nextBlockId + 3 := by
    rw [Lowering.function_errorIf, nextBlockId_expression]
    rfl
  exact ⟨_, head, _, (congrArg (· ++ _) hhead).trans
    ((List.append_assoc ..).trans (List.append_assoc ..)), hn, rfl, rfl, rfl, hplain, rfl, rfl, rfl⟩

theorem Built.of_none {b n n' : Nat} {f g : Bool} {new : List TirInstruction}
    (h : Built b none f n n' new) : Built b none g n n' new := by
  obtain ⟨S, hSb, hSr, hSg, -⟩ := h.reach
  exact { h with reach := ⟨S, hSb, hSr, hSg, fun _ k hk => nomatch hk⟩ }

/-- What lowering a statement adds. -/
def Lowered (b : Nat) (falls : Bool) (s : Lowering) (out : Option Nat × List TirBinding × Lowering) :
    Prop :=
  ∃ new, out.2.2.function.instructions = s.function.instructions ++ new ∧
    Built b out.1 falls s.function.nextBlockId out.2.2.function.nextBlockId new

theorem fallsThrough_other {node : ASTNode} (h : isStatement node = false) :
    fallsThrough node = true := by
  cases node <;> first | rfl | cases h

/-- **Lowering builds blocks.** -/
theorem lowered_both :
    (∀ node : ASTNode, wellShaped node = true → ∀ (b : Nat) (Γ : List TirBinding) (s : Lowering),
      b < s.function.nextBlockId →
        Lowered b (fallsThrough node) s (lowerStatement node (some b) Γ s)) ∧
    ∀ nodes : List ASTNode, allWellShaped nodes = true →
      ∀ (b : Nat) (Γ : List TirBinding) (s : Lowering), b < s.function.nextBlockId →
        Lowered b (allFallThrough nodes) s (lowerStatements nodes (some b) Γ s) := by
  apply statement_induct
  constructor
  case varDecl =>
    intro name isMutable value annotated line col h b Γ s _
    have hv : wellShaped value = true := h
    obtain ⟨new, hnew, hplain⟩ := (straight_expression hv b Γ s).trans
      (straight_emit (show "bind" ∉ terminators by decide) b _ "unit"
        (show [TirOperand.word name, .value (lowerExpression b Γ value s).1].filterMap
          TirOperand.block? = [] from rfl))
    refine ⟨new, hnew, ?_⟩
    rw [← nextBlockId_expression b Γ value s]
    exact built_plain _ hplain
  case returnNode =>
    intro expr h b Γ s _
    have hv : wellShaped expr = true := h
    obtain ⟨new, hnew, hplain⟩ := straight_expression hv b Γ s
    refine ⟨_, (congrArg (· ++ _) hnew).trans (List.append_assoc ..), ?_⟩
    rw [← nextBlockId_expression b Γ expr s]
    exact built_return _ hplain rfl rfl rfl
  case block =>
    intro statements ih h b Γ s hb
    rw [wellShaped, Bool.and_eq_true] at h
    exact ih h.1 b Γ s hb
  case ifNode =>
    intro condition thenBody elseBody ht he h b Γ s hb
    rw [wellShaped, Bool.and_eq_true, Bool.and_eq_true] at h
    obtain ⟨head, branch, hcode, hnext, hplain, hbb, hbt, hba⟩ := emits_ifHead h.1.1 b Γ s
    rw [lowerStatement_if]
    dsimp only
    generalize ifHead condition b Γ s = s₁ at hcode hnext ⊢
    obtain ⟨new₁, hcode₁, hbuilt₁⟩ := ht h.1.2 s.function.nextBlockId Γ s₁ (by omega)
    generalize lowerStatement thenBody (some s.function.nextBlockId) Γ s₁ = t at hcode₁ hbuilt₁ ⊢
    obtain ⟨jumps₁, hjcode₁, hjumps₁⟩ := jumps_jumpTo (s.function.nextBlockId + 2) t.1 t.2.2
    have hjnext₁ := nextBlockId_jumpTo (s.function.nextBlockId + 2) t.1 t.2.2
    generalize jumpTo (s.function.nextBlockId + 2) t.1 t.2.2 = s₂ at hjcode₁ hjnext₁ ⊢
    have hle₁ := hbuilt₁.le
    obtain ⟨new₂, hcode₂, hbuilt₂⟩ := he h.2 (s.function.nextBlockId + 1) Γ s₂ (by omega)
    generalize lowerStatement elseBody (some (s.function.nextBlockId + 1)) Γ s₂ = e
      at hcode₂ hbuilt₂ ⊢
    obtain ⟨jumps₂, hjcode₂, hjumps₂⟩ := jumps_jumpTo (s.function.nextBlockId + 2) e.1 e.2.2
    have hjnext₂ := nextBlockId_jumpTo (s.function.nextBlockId + 2) e.1 e.2.2
    rw [hnext] at hbuilt₁
    rw [hjnext₁] at hbuilt₂
    refine ⟨head ++ [branch] ++ ((new₁ ++ jumps₁) ++ (new₂ ++ jumps₂)), ?_, ?_⟩
    · dsimp only
      rw [hjcode₂, hcode₂, hjcode₁, hcode₁, hcode]
      simp only [List.append_assoc]
    · dsimp only
      rw [hjnext₂]
      exact built_if hb hplain hbb hbt hba (sealed_of_built hbuilt₁ hjumps₁)
        (sealed_of_built hbuilt₂ hjumps₂)
  case whileNode =>
    intro condition body ih h b Γ s hb
    rw [wellShaped, Bool.and_eq_true] at h
    obtain ⟨jump, head, branch, hcode, hnext, hjb, hjt, hja, hplain, hbb, hbt, hba⟩ :=
      emits_whileHead h.1 b Γ s
    rw [lowerStatement_while]
    dsimp only
    generalize whileHead condition b Γ s = s₁ at hcode hnext ⊢
    obtain ⟨new₁, hcode₁, hbuilt₁⟩ := ih h.2 (s.function.nextBlockId + 1) Γ s₁ (by omega)
    generalize lowerStatement body (some (s.function.nextBlockId + 1)) Γ s₁ = r at hcode₁ hbuilt₁ ⊢
    obtain ⟨jumps, hjcode, hjumps⟩ := jumps_jumpTo s.function.nextBlockId r.1 r.2.2
    rw [hnext] at hbuilt₁
    refine ⟨[jump] ++ (head ++ [branch]) ++ (new₁ ++ jumps), ?_, ?_⟩
    · dsimp only
      rw [hjcode, hcode₁, hcode]
      simp only [List.append_assoc]
    · dsimp only
      rw [nextBlockId_jumpTo]
      exact built_while hb hjb hjt hja hplain hbb hbt hba (sealed_of_built hbuilt₁ hjumps)
  case other =>
    intro node hnode h b Γ s _
    rw [lowerStatement_other hnode, fallsThrough_other hnode]
    obtain ⟨new, hnew, hplain⟩ := straight_expression h b Γ s
    refine ⟨new, hnew, ?_⟩
    dsimp only
    rw [nextBlockId_expression]
    exact built_plain _ hplain
  case nil =>
    intro _ b Γ s _
    exact ⟨[], (List.append_nil _).symm, built_plain _ fun i hi => absurd hi List.not_mem_nil⟩
  case cons =>
    intro node nodes ih ihs h b Γ s hb
    rw [allWellShaped, Bool.and_eq_true] at h
    obtain ⟨new₁, hcode₁, hbuilt₁⟩ := ih h.1 b Γ s hb
    rw [lowerStatements]
    generalize lowerStatement node (some b) Γ s = out at hcode₁ hbuilt₁ ⊢
    rcases out with ⟨r, Γ', s₁⟩
    dsimp only at hcode₁ hbuilt₁ ⊢
    cases r with
    | none =>
      rw [lowerStatements_none]
      exact ⟨new₁, hcode₁, hbuilt₁.of_none⟩
    | some c =>
      have hc : c < s₁.function.nextBlockId := by
        have hle := hbuilt₁.le
        rcases hbuilt₁.last c rfl with rfl | hc
        · omega
        · exact hc.2
      obtain ⟨new₂, hcode₂, hbuilt₂⟩ := ihs h.2 c Γ' s₁ hc
      exact ⟨new₁ ++ new₂, by rw [hcode₂, hcode₁, List.append_assoc],
        built_seq hbuilt₁ hbuilt₂ hb⟩

end Tir
