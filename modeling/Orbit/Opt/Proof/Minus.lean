import Orbit.Build.Proof.IntConstant
import Orbit.Opt.Proof.Fold

/-!
# Folding minus signs

The code of a literal under minus signs folds to constants: every negation becomes a load of the
negated word (`foldLoop_minus`), since the register it negates is written once, by the instruction
before it.
-/

namespace Opt

open IR
open Build (minusAt loadAt negAt)

/-- The word under `k` minus signs. -/
def minusValue (w : Word) : Nat → Word
  | 0 => w
  | k + 1 => 0 - minusValue w k

/-- From position `start` on the function has the code of `w` under `n` signs, and nothing else
writes its registers. -/
structure HasMinus (f : IRFunction) (start base : Nat) (w : Word) (n : Nat) : Prop where
  code : ∀ k, k ≤ n → f.instructions[start + k]? = some (minusAt base w k)
  only : ∀ (j : Nat) i, f.instructions[j]? = some i → base ≤ i.dest → i.dest ≤ base + n →
    start ≤ j ∧ j ≤ start + n

/-! ## One round -/

theorem positions_eq_single {p : IRInstruction → Bool} {is : List IRInstruction} {d : Nat}
    {i : IRInstruction} (hd : is[d]? = some i) (hp : p i = true)
    (honly : ∀ (k : Nat) j, is[k]? = some j → p j = true → k = d) : positions p is = [d] := by
  have hnodup : (positions p is).Nodup := List.nodup_range.filter _
  rw [← List.perm_singleton, List.perm_ext_iff_of_nodup hnodup (by simp)]
  intro k
  rw [List.mem_singleton]
  constructor
  · intro hk
    obtain ⟨-, hany⟩ := List.mem_filter.mp hk
    cases hj : is[k]? with
    | none => simp [hj] at hany
    | some j => exact honly k j hj (by simpa [hj] using hany)
  · rintro rfl
    exact mem_positions hd hp

theorem foldAt_other {f : IRFunction} {k j : Nat} (h : k ≠ j) :
    (foldAt f k).1.instructions[j]? = f.instructions[j]? := by
  rcases foldAt_cases f k with he | ⟨i, i', -, -, he⟩
  · rw [he]
  · rw [he]
    exact List.getElem?_set_ne h

theorem foldAt_self {f : IRFunction} {k : Nat} {i : IRInstruction} (h : f.instructions[k]? = some i) :
    (foldAt f k).1.instructions[k]? = some ((foldInstr f k i).getD i) := by
  obtain ⟨hlt, -⟩ := List.getElem?_eq_some_iff.mp h
  rw [foldAt, h]
  dsimp only
  cases foldInstr f k i with
  | none => exact h
  | some i' => simp [hlt]

theorem foldLoop_later {f : IRFunction} {m j : Nat} (h : m ≤ j) :
    (foldLoop f m).1.instructions[j]? = f.instructions[j]? := by
  induction m with
  | zero => rfl
  | succ m ih => exact (foldAt_other (by omega)).trans (ih (by omega))

theorem foldLoop_dest (f : IRFunction) (m j : Nat) :
    ((foldLoop f m).1.instructions[j]?).map (·.dest) = (f.instructions[j]?).map (·.dest) := by
  induction m with
  | zero => rfl
  | succ m ih => exact (foldAt_dest _ m j).trans ih

/-- What is not an operator is not folded. -/
theorem foldLoop_ret {f : IRFunction} {j : Nat} {i : IRInstruction}
    (h : f.instructions[j]? = some i) (hop : i.opcode = .ret) (m : Nat) :
    (foldLoop f m).1.instructions[j]? = some i := by
  induction m with
  | zero => exact h
  | succ m ih =>
    by_cases hmj : m = j
    · subst hmj
      refine (foldAt_self ih).trans ?_
      rw [foldInstr, hop]
      rfl
    · exact (foldAt_other hmj).trans ih

/-! ## The code -/

section
variable {f g : IRFunction} {start base n : Nat} {w : Word}

/-- A negation of a register that the instruction before it loads. -/
theorem foldInstr_neg {k : Nat} {v : Word} (hload : g.instructions[k]? = some (loadAt base v))
    (honly : ∀ (j : Nat) i, g.instructions[j]? = some i → i.dest = base → j = k) (dest : Int) :
    foldInstr g (k + 1) (negAt dest base) = some (loadAt dest (0 - v)) := by
  have hpos : positions (fun i => i.dest == (base : Int)) g.instructions = [k] :=
    positions_eq_single hload (by simp [loadAt]) fun j i hj hi => honly j i hj (by simpa using hi)
  have hclear : regionClear g k (k + 1) = true := by
    obtain ⟨hlt, hget⟩ := List.getElem?_eq_some_iff.mp hload
    have : (g.instructions.take (k + 1)).drop k = [loadAt base v] := by
      rw [List.take_add_one, hload, List.drop_append_of_le_length (by simp; omega)]
      simp
    rw [regionClear, this]
    rfl
  have hres : resolveConstInt g resolveDepth (.register base) (k + 1) = .int v := by
    have hop : (loadAt base v).opcode = .loadConst := rfl
    have hval : (loadAt base v).operand1 = .int v := rfl
    simp [resolveDepth, resolveConstInt, hpos, hload, hop, hval, hclear]
  have hop : (negAt dest base).opcode = .neg := rfl
  have hreg : (negAt dest base).operand1 = .register base := rfl
  rw [foldInstr, hop, hreg, hres]
  rfl

/-- **Minus signs fold to constants.** -/
theorem foldLoop_minus (h : HasMinus f start base w n) (m : Nat) : ∀ k, k ≤ n → start + k < m →
    (foldLoop f m).1.instructions[start + k]? = some (loadAt (base + k) (minusValue w k)) := by
  induction m with
  | zero => intro k _ hk; omega
  | succ m ih =>
    intro k hkn hk
    by_cases hm : m = start + k
    · subst hm
      have hold : (foldLoop f (start + k)).1.instructions[start + k]? = some (minusAt base w k) := by
        rw [foldLoop_later (Nat.le_refl _), h.code k hkn]
      refine (foldAt_self hold).trans ?_
      cases k with
      | zero =>
        rw [minusAt, foldInstr]
        rfl
      | succ k =>
        have hload := ih k (by omega) (by omega)
        have honly : ∀ (j : Nat) i, (foldLoop f (start + (k + 1))).1.instructions[j]? = some i →
            i.dest = ((base + k : Nat) : Int) → j = start + k := by
          intro j i hj hi
          have hdest := foldLoop_dest f (start + (k + 1)) j
          rw [hj] at hdest
          obtain ⟨i', hi', hd⟩ := Option.map_eq_some_iff.mp hdest.symm
          dsimp only at hd
          obtain ⟨hge, hle⟩ := h.only j i' hi' (by omega) (by omega)
          -- inside the code the registers are in order
          obtain ⟨e, rfl⟩ : ∃ e, j = start + e := ⟨j - start, by omega⟩
          rw [h.code e (by omega), Option.some.injEq] at hi'
          rw [← hi', Build.dest_minusAt] at hd
          omega
        have hneg : foldInstr (foldLoop f (start + (k + 1))).1 (start + (k + 1))
            (negAt (base + (k + 1 : Nat)) ((base + k : Nat) : Int)) =
              some (loadAt (base + (k + 1 : Nat)) (0 - minusValue w k)) :=
          foldInstr_neg hload honly (base + (k + 1 : Nat))
        have hat : minusAt base w (k + 1) =
            negAt (base + (k + 1 : Nat)) ((base + k : Nat) : Int) := rfl
        rw [hat, hneg]
        rfl
    · exact (foldAt_other hm).trans (ih k hkn (by omega))

end

end Opt
