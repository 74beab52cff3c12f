import Mathlib.Data.List.Basic

/-!
# Trees and their Polish words

The word of a tree lists its symbols from the root on, each with its number of children. A stack
reads it back from the right (`read_word`), so a tree is determined by its word; and every word
whose symbols find their children on the stack is the word of a row of trees (`words_read`). So any
two words stand in the words of two trees, in either order (`exists_words`).
-/

namespace Lib

inductive RoseTree (α : Type) where
  | node (symbol : α) (children : List (RoseTree α))

namespace RoseTree

variable {α : Type}

mutual

def word : RoseTree α → List (α × Nat)
  | node a ts => (a, ts.length) :: words ts

def words : List (RoseTree α) → List (α × Nat)
  | [] => []
  | t :: ts => word t ++ words ts

end

@[simp] theorem words_nil : words ([] : List (RoseTree α)) = [] := rfl

@[simp] theorem words_cons (t : RoseTree α) (ts : List (RoseTree α)) :
    words (t :: ts) = t.word ++ words ts := rfl

theorem words_append (ts us : List (RoseTree α)) : words (ts ++ us) = words ts ++ words us := by
  induction ts with
  | nil => rfl
  | cons t ts ih => rw [List.cons_append, words_cons, words_cons, ih, List.append_assoc]

/-! ## Reading -/

/-- A symbol takes its children from the stack that is left by what stands behind it. -/
def push (s : α × Nat) (stack : List (RoseTree α)) : List (RoseTree α) :=
  node s.1 (stack.take s.2) :: stack.drop s.2

def read (w : List (α × Nat)) : List (RoseTree α) := w.foldr push []

@[simp] theorem read_nil : read ([] : List (α × Nat)) = [] := rfl

@[simp] theorem read_cons (s : α × Nat) (w : List (α × Nat)) :
    read (s :: w) = push s (read w) := rfl

mutual

/-- A word leaves its tree on the stack. -/
theorem read_word : ∀ (t : RoseTree α) (w : List (α × Nat)), read (t.word ++ w) = t :: read w
  | node a ts, w => by
    rw [word, List.cons_append, read_cons, read_words ts w, push, List.take_left' rfl,
      List.drop_left' rfl]

theorem read_words : ∀ (ts : List (RoseTree α)) (w : List (α × Nat)),
    read (words ts ++ w) = ts ++ read w
  | [], _ => rfl
  | t :: ts, w => by
    rw [words_cons, List.append_assoc, read_word t, read_words ts w, List.cons_append]

end

/-- **A row of trees is determined by its word.** -/
theorem words_injective {ts us : List (RoseTree α)} (h : words ts = words us) : ts = us := by
  have hread := congrArg read h
  rwa [← List.append_nil (words ts), ← List.append_nil (words us), read_words, read_words, read_nil,
    List.append_nil, List.append_nil] at hread

/-! ## Words of rows -/

/-- Every symbol finds its children on the stack. -/
def Supplied : List (α × Nat) → Prop
  | [] => True
  | s :: w => s.2 ≤ (read w).length ∧ Supplied w

theorem words_push {s : α × Nat} {stack : List (RoseTree α)} (h : s.2 ≤ stack.length) :
    words (push s stack) = s :: words stack := by
  have hsplit := congrArg words (List.take_append_drop s.2 stack)
  rw [words_append] at hsplit
  rw [push, words_cons, word, List.length_take, Nat.min_eq_left h, List.cons_append, hsplit]

/-- **The stack that a word leaves has this word.** -/
theorem words_read {w : List (α × Nat)} (h : Supplied w) : words (read w) = w := by
  induction w with
  | nil => rfl
  | cons s w ih => rw [read_cons, words_push h.1, ih h.2]

theorem length_push {s : α × Nat} {stack : List (RoseTree α)} (h : s.2 ≤ stack.length) :
    (push s stack).length + s.2 = stack.length + 1 := by
  rw [push, List.length_cons, List.length_drop]
  omega

/-- How many children a word asks for. -/
def demand (w : List (α × Nat)) : Nat := w.foldr (fun s n => s.2 + n) 0

/-- A word in front of enough trees is supplied, and what it leaves depends on its length and its
demand alone. -/
theorem supplied_append {w v : List (α × Nat)} (hv : Supplied v)
    (hdemand : demand w ≤ (read v).length) :
    Supplied (w ++ v) ∧ (read (w ++ v)).length + demand w = (read v).length + w.length := by
  induction w with
  | nil => exact ⟨hv, rfl⟩
  | cons s w ih =>
    have hsplit : demand (s :: w) = s.2 + demand w := rfl
    obtain ⟨hsupplied, hlength⟩ := ih (by omega)
    have hs : s.2 ≤ (read (w ++ v)).length := by omega
    have hpush := length_push hs
    refine ⟨⟨hs, hsupplied⟩, ?_⟩
    rw [List.cons_append, read_cons, List.length_cons]
    omega

theorem supplied_leaves (a : α) (n : Nat) :
    Supplied (List.replicate n (a, 0)) ∧ (read (List.replicate n (a, 0))).length = n := by
  induction n with
  | zero => exact ⟨trivial, rfl⟩
  | succ n ih =>
    obtain ⟨hsupplied, hlength⟩ := ih
    refine ⟨⟨Nat.zero_le _, hsupplied⟩, ?_⟩
    rw [List.replicate_succ, read_cons, push, List.length_cons, List.drop_zero, hlength]

/-- Symbols of two children each make one tree of a row. -/
theorem supplied_pairs (a : α) {n : Nat} {v : List (α × Nat)} (hv : Supplied v)
    (hn : (read v).length = n + 1) :
    Supplied (List.replicate n (a, 2) ++ v) ∧
      (read (List.replicate n (a, 2) ++ v)).length = 1 := by
  induction n generalizing v with
  | zero => exact ⟨hv, hn⟩
  | succ n ih =>
    have htwo : 2 ≤ (read v).length := by omega
    have hlength := length_push (show (a, 2).2 ≤ (read v).length from htwo)
    rw [List.replicate_succ', List.append_assoc]
    refine ih ⟨htwo, hv⟩ ?_
    rw [List.singleton_append, read_cons]
    omega

/-- A word is a part of the word of a tree, between symbols of two children and leaves. -/
theorem exists_word (p z : α) (w : List (α × Nat)) :
    ∃ t : RoseTree α, t.word =
      List.replicate w.length (p, 2) ++ (w ++ List.replicate (demand w + 1) (z, 0)) := by
  obtain ⟨hleaves, hcount⟩ := supplied_leaves z (demand w + 1)
  obtain ⟨hsupplied, hlength⟩ := supplied_append hleaves (show demand w ≤ _ by omega)
  obtain ⟨hpairs, hone⟩ := supplied_pairs p hsupplied (show _ = w.length + 1 by omega)
  obtain ⟨t, ht⟩ := List.length_eq_one_iff.mp hone
  refine ⟨t, ?_⟩
  rw [← words_read hpairs, ht, words_cons, words_nil, List.append_nil]

theorem demand_append (w v : List (α × Nat)) : demand (w ++ v) = demand w + demand v := by
  induction w with
  | nil => exact (Nat.zero_add _).symm
  | cons s w ih =>
    show s.2 + demand (w ++ v) = s.2 + demand w + demand v
    omega

/-- **Two words stand in the same place of two trees, one way round and the other.** -/
theorem exists_words (p z : α) (w w' : List (α × Nat)) :
    ∃ (t t' : RoseTree α) (front back : List (α × Nat)),
      t.word = front ++ (w ++ w' ++ back) ∧ t'.word = front ++ (w' ++ w ++ back) ∧
        (∀ s ∈ front, s = (p, 2)) ∧ ∀ s ∈ back, s = (z, 0) := by
  obtain ⟨t, ht⟩ := exists_word p z (w ++ w')
  obtain ⟨t', ht'⟩ := exists_word p z (w' ++ w)
  have hlength : (w' ++ w).length = (w ++ w').length := by
    rw [List.length_append, List.length_append, Nat.add_comm]
  have hdemand : demand (w' ++ w) = demand (w ++ w') := by
    rw [demand_append, demand_append, Nat.add_comm]
  rw [hlength, hdemand] at ht'
  refine ⟨t, t', _, _, ht, ht', ?_, ?_⟩
  · exact fun s hs => List.eq_of_mem_replicate hs
  · exact fun s hs => List.eq_of_mem_replicate hs

end RoseTree

end Lib
