import Mathlib.Data.List.Basic
import Mathlib.Data.List.Perm.Basic

/-!
# Bounded queues

A first-in first-out queue of bounded capacity by what its operations return. `Legal cap log q`: the
results in `log`, in this order, are those of a queue that was empty at first and now holds `q`. In
a legal log what was pushed is what was popped and then what is held (`Legal.pushes_eq`).
-/

namespace Lib.Fifo

/-- What an operation returns: a push and a pop with their item, a push that finds no room, a pop
that finds nothing, and the answer to whether the queue is empty. -/
inductive Event (α : Type) where
  | pushed (x : α)
  | full (x : α)
  | popped (x : α)
  | nothing
  | isEmpty (answer : Bool)
  deriving DecidableEq, Repr

section
variable {α : Type}

/-- The item of a push. -/
def Event.pushed? : Event α → Option α
  | .pushed x => some x
  | _ => none

/-- The item of a pop. -/
def Event.popped? : Event α → Option α
  | .popped x => some x
  | _ => none

def pushes (log : List (Event α)) : List α := log.filterMap Event.pushed?
def pops (log : List (Event α)) : List α := log.filterMap Event.popped?

/-- One operation of a queue that holds the first list leaves the second. -/
inductive Step (cap : Nat) : List α → Event α → List α → Prop
  | pushed {q x} (h : q.length < cap) : Step cap q (.pushed x) (q ++ [x])
  | full {q x} (h : q.length = cap) : Step cap q (.full x) q
  | popped {q x} : Step cap (x :: q) (.popped x) q
  | nothing : Step cap [] .nothing []
  | isEmpty {q} : Step cap q (.isEmpty q.isEmpty) q

inductive Legal (cap : Nat) : List (Event α) → List α → Prop
  | nil : Legal cap [] []
  | snoc {log q e q'} (h : Legal cap log q) (hs : Step cap q e q') : Legal cap (log ++ [e]) q'

variable {cap : Nat} {log pre post : List (Event α)} {q : List α} {x : α}

@[simp] theorem pushes_nil : pushes ([] : List (Event α)) = [] := rfl
@[simp] theorem pops_nil : pops ([] : List (Event α)) = [] := rfl

theorem pushes_snoc (e : Event α) : pushes (log ++ [e]) = pushes log ++ e.pushed?.toList := by
  rw [pushes, List.filterMap_append]
  cases e <;> rfl

theorem pops_snoc (e : Event α) : pops (log ++ [e]) = pops log ++ e.popped?.toList := by
  rw [pops, List.filterMap_append]
  cases e <;> rfl

theorem Step.items {e : Event α} {q' : List α} (h : Step cap q e q') :
    q ++ e.pushed?.toList = e.popped?.toList ++ q' := by
  cases h <;> simp [Event.pushed?, Event.popped?]

theorem Step.full_eq {q' : List α} (h : Step cap q (.full x) q') : q' = q := by
  cases h
  rfl

theorem Step.pushed_eq {q' : List α} (h : Step cap q (.pushed x) q') : q' = q ++ [x] := by
  cases h
  rfl

/-- **What was pushed** is what was popped and then what is held. -/
theorem Legal.pushes_eq (h : Legal cap log q) : pushes log = pops log ++ q := by
  induction h with
  | nil => rfl
  | snoc _ hs ih => rw [pushes_snoc, pops_snoc, ih, List.append_assoc, hs.items, List.append_assoc]

theorem Legal.pops_prefix (h : Legal cap log q) : pops log <+: pushes log :=
  ⟨q, h.pushes_eq.symm⟩

/-- What happened up to an event is legal, and so is the event then. -/
theorem Legal.split {e : Event α} (h : Legal cap log q) (hlog : log = pre ++ e :: post) :
    ∃ q₁ q₂, Legal cap pre q₁ ∧ Step cap q₁ e q₂ := by
  induction h generalizing post with
  | nil => simp at hlog
  | snoc h hs ih =>
    rcases List.eq_nil_or_concat post with rfl | ⟨post, e', rfl⟩
    · obtain ⟨rfl, he⟩ := List.append_inj' hlog rfl
      obtain rfl := List.singleton_inj.mp he
      exact ⟨_, _, h, hs⟩
    · have hlog' := hlog
      rw [List.concat_eq_append, ← List.cons_append, ← List.append_assoc] at hlog'
      exact ih (List.append_inj' hlog' rfl).1

/-- A push fails when as many items are held as there is room for. -/
theorem Legal.full_length (h : Legal cap log q) (hlog : log = pre ++ .full x :: post) :
    (pushes pre).length = (pops pre).length + cap := by
  obtain ⟨q₁, q₂, hpre, hs⟩ := h.split hlog
  cases hs with
  | full hcap => rw [hpre.pushes_eq, List.length_append, hcap]

/-- A pop fails when every item was popped. -/
theorem Legal.nothing_left (h : Legal cap log q) (hlog : log = pre ++ .nothing :: post) :
    pops pre = pushes pre := by
  obtain ⟨q₁, q₂, hpre, hs⟩ := h.split hlog
  cases hs
  rw [hpre.pushes_eq, List.append_nil]

end

end Lib.Fifo

/-!
# Slots and a stack of free things

Things of a fixed stock are held by the first `n` slots of an array or lie on a stack of free ones.
A slot acquires the top of the stack; a slot that is released gives its thing back, and the last slot
takes its place. Each thing stays in one place (`Owns`).
-/

namespace Lib.SlotPool

variable {α : Type}

/-- The last thing of a list takes the place of the one that is taken out. -/
theorem compact_perm {l : List α} {i : Nat} {x y : α} (hx : l[i]? = some x)
    (hy : l.getLast? = some y) : (x :: (l.set i y).dropLast).Perm l := by
  obtain ⟨hi, rfl⟩ := List.getElem?_eq_some_iff.mp hx
  obtain ⟨l, z, rfl⟩ := (List.eq_nil_or_concat' l).resolve_left (by rintro rfl; cases hi)
  rw [List.getLast?_concat] at hy
  obtain rfl := Option.some.inj hy
  rw [List.length_append, List.length_singleton] at hi
  by_cases hlast : i < l.length
  · rw [List.set_append_left _ _ hlast, List.dropLast_concat, List.getElem_append_left hlast]
    calc (l[i] :: l.set i z).Perm (l[i] :: z :: l.eraseIdx i) :=
          (List.set_perm_cons_eraseIdx hlast z).cons _
      _ |>.Perm (z :: l[i] :: l.eraseIdx i) := .swap _ _ _
      _ |>.Perm (z :: l) := (List.getElem_cons_eraseIdx_perm hlast).cons _
      _ |>.Perm (l ++ [z]) := (List.perm_append_singleton z l).symm
  · obtain rfl : i = l.length := by omega
    simpa using (List.perm_append_singleton z l).symm

/-- The first slots, when the next one is filled. -/
theorem take_fill {l : List α} {n : Nat} (h : n < l.length) (x : α) :
    (l.set n x).take (n + 1) = l.take n ++ [x] := by
  rw [List.take_set, List.take_add_one, List.getElem?_eq_getElem h, Option.toList_some,
    List.set_append_right _ _ (by rw [List.length_take]; omega), List.length_take,
    Nat.min_eq_left (Nat.le_of_lt h), Nat.sub_self, List.set_cons_zero]

/-- The first slots, when the last of them takes the place of another. -/
theorem take_compact {l : List α} {n : Nat} (h : n + 1 ≤ l.length) (i : Nat) (y : α) :
    (l.set i y).take n = ((l.take (n + 1)).set i y).dropLast := by
  rw [← List.take_set, List.dropLast_eq_take, List.length_take, List.length_set,
    Nat.min_eq_left h, Nat.add_sub_cancel, List.take_take, Nat.min_eq_left (Nat.le_succ n)]

/-- The stock `all` in the first `n` slots and the first `m` places of the stack. -/
structure Owns (all slots : List α) (n : Nat) (free : List α) (m : Nat) : Prop where
  slots_length : slots.length = all.length
  free_length : free.length = all.length
  count : n + m = all.length
  perm : (slots.take n ++ free.take m).Perm all

variable {all slots free : List α} {n m : Nat}

/-- A stack that has everything. -/
theorem Owns.start (hslots : slots.length = all.length) : Owns all slots 0 all all.length where
  slots_length := hslots
  free_length := rfl
  count := Nat.zero_add _
  perm := by rw [List.take_zero, List.nil_append, List.take_length]

/-- The next slot takes the top of the stack. -/
theorem Owns.acquire (h : Owns all slots n free (m + 1)) :
    ∃ x, free[m]? = some x ∧ n < slots.length ∧ Owns all (slots.set n x) (n + 1) free m := by
  have hcount := h.count
  have hn : n < slots.length := by
    rw [h.slots_length]
    omega
  have hm : m < free.length := by
    rw [h.free_length]
    omega
  refine ⟨free[m], List.getElem?_eq_getElem hm, hn, ?_⟩
  refine ⟨by rw [List.length_set, h.slots_length], h.free_length, by omega, ?_⟩
  have hperm := h.perm
  rw [List.take_add_one, List.getElem?_eq_getElem hm, Option.toList_some] at hperm
  rw [take_fill hn, List.append_assoc]
  refine List.Perm.trans ?_ hperm
  exact (List.perm_append_comm).append_left _

/-- A slot gives its thing back, and the last slot takes its place. -/
theorem Owns.release (h : Owns all slots (n + 1) free m) {i : Nat} (hi : i < n + 1) :
    ∃ x y, slots[i]? = some x ∧ slots[n]? = some y ∧ i < slots.length ∧ m < free.length ∧
      Owns all (slots.set i y) n (free.set m x) (m + 1) := by
  have hcount := h.count
  have hn : n < slots.length := by
    rw [h.slots_length]
    omega
  have hm : m < free.length := by
    rw [h.free_length]
    omega
  have hi' : i < slots.length := by omega
  refine ⟨slots[i], slots[n], List.getElem?_eq_getElem hi', List.getElem?_eq_getElem hn, hi', hm, ?_⟩
  refine ⟨by rw [List.length_set, h.slots_length], by rw [List.length_set, h.free_length], by omega, ?_⟩
  have hlast : (slots.take (n + 1)).getLast? = some slots[n] := by
    rw [List.take_add_one, List.getElem?_eq_getElem hn, Option.toList_some, List.getLast?_concat]
  have hfirst : (slots.take (n + 1))[i]? = some slots[i] := by
    rw [List.getElem?_take_of_lt hi, List.getElem?_eq_getElem hi']
  rw [take_compact (by omega), take_fill hm]
  refine List.Perm.trans ?_ h.perm
  calc (((slots.take (n + 1)).set i slots[n]).dropLast ++ (free.take m ++ [slots[i]])).Perm
        (((slots.take (n + 1)).set i slots[n]).dropLast ++ slots[i] :: free.take m) :=
        (List.perm_append_singleton _ _).append_left _
    _ |>.Perm (slots[i] :: ((slots.take (n + 1)).set i slots[n]).dropLast ++ free.take m) :=
        List.perm_middle
    _ |>.Perm (slots.take (n + 1) ++ free.take m) :=
        (compact_perm hfirst hlast).append_right _

end Lib.SlotPool
