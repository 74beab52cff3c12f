import Mathlib.Data.List.Basic
import Mathlib.Data.List.Infix

/-!
# Searching a list for a sublist

`indexOf needle l` is the first position of `l` at which `needle` starts. A text whose parts hold no
separator `q` is searched part by part: a needle that starts with `q` can only start at a separator
(`indexOf_skip`), and what stands between two separators of the needle is a whole part of the text
(`prefix_sep`). These two rules find every occurrence in a text that is built from parts.
-/

namespace Lib.Find

variable {α : Type}

/-- Up to the first separator, a prefix and the text agree part by part. -/
theorem prefix_sep {q : α} {a b a' l : List α} (ha : q ∉ a) (ha' : q ∉ a') :
    a ++ q :: b <+: a' ++ q :: l ↔ a = a' ∧ b <+: l := by
  induction a generalizing a' with
  | nil =>
    cases a' with
    | nil => simp
    | cons x a' =>
      have hx : q ≠ x := fun h => ha' (h ▸ List.mem_cons_self)
      simp [List.cons_prefix_cons, hx]
  | cons y a ih =>
    have hy : q ≠ y := fun h => ha (h ▸ List.mem_cons_self)
    have hya : q ∉ a := fun h => ha (List.mem_cons_of_mem y h)
    cases a' with
    | nil => simp [List.cons_prefix_cons, Ne.symm hy]
    | cons x a' =>
      have hxa : q ∉ a' := fun h => ha' (List.mem_cons_of_mem x h)
      simp only [List.cons_append, List.cons_prefix_cons, ih hya hxa, List.cons.injEq]
      tauto

theorem append_sep {q : α} {a b a' b' : List α} (ha : q ∉ a) (ha' : q ∉ a')
    (h : a ++ q :: b = a' ++ q :: b') : a = a' ∧ b = b' := by
  obtain ⟨rfl, -⟩ := (prefix_sep ha ha').mp ⟨[], (List.append_nil _).trans h⟩
  exact ⟨rfl, (List.cons.inj (List.append_cancel_left h)).2⟩

variable [DecidableEq α]

/-- The first position at which `needle` starts. -/
def indexOf (needle : List α) : List α → Option Nat
  | [] => if needle = [] then some 0 else none
  | a :: l => if needle.isPrefixOf (a :: l) then some 0 else (indexOf needle l).map (· + 1)

theorem indexOf_nil (needle : List α) :
    indexOf needle [] = if needle = [] then some 0 else none := rfl

theorem indexOf_cons (needle : List α) (a : α) (l : List α) :
    indexOf needle (a :: l) =
      if needle.isPrefixOf (a :: l) then some 0 else (indexOf needle l).map (· + 1) := rfl

theorem indexOf_of_match {needle l : List α} (h : needle <+: l) : indexOf needle l = some 0 := by
  cases l with
  | nil => rw [indexOf_nil, if_pos (List.prefix_nil.mp h)]
  | cons a l => rw [indexOf_cons, if_pos (List.isPrefixOf_iff_prefix.mpr h)]

theorem indexOf_cons_of_miss {needle : List α} {a : α} {l : List α}
    (h : ¬ needle <+: a :: l) : indexOf needle (a :: l) = (indexOf needle l).map (· + 1) := by
  rw [indexOf_cons, if_neg (mt List.isPrefixOf_iff_prefix.mp h)]

/-- The position found is the first at which the needle starts. -/
theorem indexOf_some {needle l : List α} {p : Nat} (h : indexOf needle l = some p) :
    needle <+: l.drop p ∧ ∀ k < p, ¬ needle <+: l.drop k := by
  induction l generalizing p with
  | nil =>
    simp only [indexOf_nil, Option.ite_none_right_eq_some, Option.some.injEq] at h
    obtain ⟨rfl, rfl⟩ := h
    exact ⟨List.nil_prefix, fun k hk => absurd hk (Nat.not_lt_zero k)⟩
  | cons a l ih =>
    by_cases hp : needle <+: a :: l
    · rw [indexOf_of_match hp, Option.some.injEq] at h
      subst h
      exact ⟨hp, fun k hk => absurd hk (Nat.not_lt_zero k)⟩
    · rw [indexOf_cons_of_miss hp, Option.map_eq_some_iff] at h
      obtain ⟨m, hm, rfl⟩ := h
      obtain ⟨h1, h2⟩ := ih hm
      refine ⟨h1, fun k hk => ?_⟩
      cases k with
      | zero => exact hp
      | succ k => exact h2 k (Nat.lt_of_succ_lt_succ hk)

theorem indexOf_none {needle l : List α} (h : indexOf needle l = none) (k : Nat)
    (hk : k ≤ l.length) : ¬ needle <+: l.drop k := by
  induction l generalizing k with
  | nil =>
    intro hp
    rw [List.drop_nil] at hp
    rw [indexOf_of_match hp] at h
    cases h
  | cons a l ih =>
    have hp : ¬ needle <+: a :: l := by
      intro hp
      rw [indexOf_of_match hp] at h
      cases h
    rw [indexOf_cons_of_miss hp, Option.map_eq_none_iff] at h
    cases k with
    | zero => exact hp
    | succ k => exact ih h k (Nat.le_of_succ_le_succ hk)

/-- The first position at which a needle starts is the one found. -/
theorem indexOf_eq_some {needle l : List α} {p : Nat} (hp : p ≤ l.length) :
    indexOf needle l = some p ↔ needle <+: l.drop p ∧ ∀ k < p, ¬ needle <+: l.drop k := by
  refine ⟨indexOf_some, fun ⟨hhit, hmiss⟩ => ?_⟩
  cases h : indexOf needle l with
  | none => exact absurd hhit (indexOf_none h p hp)
  | some m =>
    obtain ⟨hm, hmin⟩ := indexOf_some h
    rcases Nat.lt_trichotomy m p with hlt | rfl | hlt
    · exact absurd hm (hmiss m hlt)
    · rfl
    · exact absurd hhit (hmin p hlt)

/-- A needle that starts with `q` does not start in a part without `q`. -/
theorem indexOf_skip {q : α} {n s : List α} (hs : q ∉ s) (l : List α) :
    indexOf (q :: n) (s ++ l) = (indexOf (q :: n) l).map (· + s.length) := by
  induction s with
  | nil => simp
  | cons a s ih =>
    have hne : q ≠ a := fun h => hs (h ▸ List.mem_cons_self)
    have hp : ¬ (q :: n) <+: a :: (s ++ l) := fun h => hne (List.cons_prefix_cons.mp h).1
    rw [List.cons_append, indexOf_cons_of_miss hp, ih fun h => hs (List.mem_cons_of_mem a h)]
    simp [Option.map_map, Function.comp_def, Nat.add_assoc]

/-- The same, past a separator at which the needle does not match. -/
theorem indexOf_pass {q : α} {n s : List α} {l : List α} (hs : q ∉ s) (hn : ¬ n <+: l) :
    indexOf (q :: n) (s ++ q :: l) = (indexOf (q :: n) l).map (· + (s.length + 1)) := by
  rw [indexOf_skip hs, indexOf_cons_of_miss fun h => hn (List.cons_prefix_cons.mp h).2]
  simp [Option.map_map, Function.comp_def]
  congr 1
  funext x
  omega

theorem indexOf_hit {q : α} {n s : List α} {l : List α} (hs : q ∉ s) (hn : n <+: l) :
    indexOf (q :: n) (s ++ q :: l) = some s.length := by
  rw [indexOf_skip hs, indexOf_of_match ((List.prefix_cons_inj q).mpr hn)]
  simp

omit [DecidableEq α] in
theorem prefix_append_cases {needle a b : List α} (h : needle <+: a ++ b) :
    needle <+: a ∨ ∃ s, needle = a ++ s ∧ s ≠ [] ∧ s <+: b := by
  obtain ⟨t, ht⟩ := h
  rcases List.append_eq_append_iff.mp ht with ⟨a', ha, -⟩ | ⟨c, hneedle, hb⟩
  · exact Or.inl ⟨a', ha.symm⟩
  · by_cases hnil : c = []
    · subst hnil
      exact Or.inl (by rw [hneedle, List.append_nil])
    · exact Or.inr ⟨c, hneedle, hnil, t, hb.symm⟩

omit [DecidableEq α] in
/-- A needle at a place of a text without it goes on behind the text. -/
theorem prefix_drop_cases {needle c t : List α} (hc : ¬ needle <:+: c) {k : Nat}
    (hk : k ≤ c.length) (h : needle <+: (c ++ t).drop k) :
    ∃ s, needle = c.drop k ++ s ∧ s ≠ [] ∧ s <+: t := by
  rw [List.drop_append_of_le_length hk] at h
  rcases prefix_append_cases h with h | h
  · exact absurd (h.isInfix.trans (List.drop_suffix k c).isInfix) hc
  · exact h

/-- A needle whose first element does not come again is found behind a text without it. -/
theorem indexOf_behind {q : α} {n c : List α} (hq : q ∉ n) (hc : ¬ q :: n <:+: c) (t : List α) :
    indexOf (q :: n) (c ++ (q :: n ++ t)) = some c.length := by
  refine (indexOf_eq_some (by simp)).mpr ⟨?_, fun k hk h => ?_⟩
  · rw [List.drop_left]
    exact List.prefix_append _ _
  · obtain ⟨s, hs, hne, hstart⟩ := prefix_drop_cases hc hk.le h
    obtain ⟨d, ds, hd⟩ := List.exists_cons_of_ne_nil
      (List.ne_nil_of_length_pos (by rw [List.length_drop]; omega : 0 < (c.drop k).length))
    obtain ⟨e, es, rfl⟩ := List.exists_cons_of_ne_nil hne
    rw [List.cons_append] at hstart
    have he := (List.cons_prefix_cons.mp hstart).1
    rw [hd, List.cons_append, List.cons.injEq] at hs
    exact hq (by rw [hs.2, he]; simp)

/-- A needle is found behind a text without it that ends with an element it does not have. -/
theorem indexOf_behind_stop {x : α} {needle c : List α} (hx : x ∉ needle)
    (hc : ¬ needle <:+: c) (hlast : c = [] ∨ c.getLast? = some x) (t : List α) :
    indexOf needle (c ++ (needle ++ t)) = some c.length := by
  refine (indexOf_eq_some (by simp)).mpr ⟨?_, fun k hk h => ?_⟩
  · rw [List.drop_left]
    exact List.prefix_append _ _
  · obtain ⟨s, hs, -, -⟩ := prefix_drop_cases hc hk.le h
    rcases hlast with rfl | hlast
    · cases hk
    · have hmem : x ∈ c.drop k := by
        refine List.mem_of_getLast? ?_
        rw [List.getLast?_drop, if_neg (by omega), hlast]
      exact hx (hs ▸ List.mem_append_left _ hmem)

/-! ## Texts built from parts -/

/-- The parts `ss`, each followed by the separator, and then `t`. -/
def parts (q : α) : List (List α) → List α → List α
  | [], t => t
  | s :: ss, t => s ++ q :: parts q ss t

omit [DecidableEq α] in
theorem parts_nil (q : α) (t : List α) : parts q [] t = t := rfl

omit [DecidableEq α] in
theorem parts_cons (q : α) (s : List α) (ss : List (List α)) (t : List α) :
    parts q (s :: ss) t = s ++ q :: parts q ss t := rfl

/-- No part holds the separator, and the needle `q :: n` starts at none of the separators. -/
def Passes (q : α) (n : List α) : List (List α) → List α → Prop
  | [], _ => True
  | s :: ss, t => q ∉ s ∧ ¬ n <+: parts q ss t ∧ Passes q n ss t

/-- A needle that matches at none of the separators is found after the parts, if at all. -/
theorem indexOf_parts {q : α} {n : List α} {ss : List (List α)} {t : List α}
    (h : Passes q n ss t) :
    indexOf (q :: n) (parts q ss t) = (indexOf (q :: n) t).map (· + (parts q ss []).length) := by
  induction ss with
  | nil => simp [parts_nil]
  | cons s ss ih =>
    rw [parts_cons, indexOf_pass h.1 h.2.1, ih h.2.2]
    simp only [Option.map_map, parts_cons, List.length_append, List.length_cons]
    congr 1
    funext x
    simp only [Function.comp_apply]
    omega

omit [DecidableEq α] in
theorem parts_append {q : α} (ss : List (List α)) (t u : List α) :
    parts q ss (t ++ u) = parts q ss t ++ u := by
  induction ss with
  | nil => rfl
  | cons s ss ih => simp [parts_cons, ih]

omit [DecidableEq α] in
/-- A needle part that is not the part that follows does not match. -/
theorem not_prefix_of_ne {q : α} {a b s : List α} {ss : List (List α)} {t : List α} (ha : q ∉ a)
    (hs : q ∉ s) (h : a ≠ s ∨ ¬ b <+: parts q ss t) : ¬ a ++ q :: b <+: parts q (s :: ss) t := by
  rw [parts_cons, prefix_sep ha hs]
  tauto

end Lib.Find
