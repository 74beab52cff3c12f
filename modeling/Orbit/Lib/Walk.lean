import Mathlib.Data.List.Nodup
import Mathlib.Logic.Relation

/-!
# Walking a graph in depth

`walk` enters the nodes of a list one after the other, and behind each the nodes it leads to, but none
twice: the nodes that were entered are remembered in order. A node of which nothing is known leads
nowhere. Whatever it starts with, a walk enters the nodes that can be reached and no others
(`mem_walk_iff`), each once (`Walked.nodup`), and it comes to its end if it may go as deep as there are
nodes that lead on (`walk_ends`).
-/

namespace Lib.Walk

variable {V : Type} [DecidableEq V] {succ : V → Option (List V)}

/-- Enter a node, and with `inside` the nodes it leads to. -/
def enter (succ : V → Option (List V)) (inside : List V → List V → Option (List V))
    (entered : List V) (v : V) : Option (List V) :=
  if v ∈ entered then some entered
  else
    match succ v with
    | none => some (entered ++ [v])
    | some next => inside (entered ++ [v]) next

/-- The nodes entered behind a walk through `todo`, at most so many inside each other. -/
def walk (succ : V → Option (List V)) : (depth : Nat) → (entered todo : List V) → Option (List V)
  | 0, _, _ => none
  | depth + 1, entered, todo => todo.foldlM (enter succ (walk succ depth)) entered

/-- One node leads to another. -/
def Edge (succ : V → Option (List V)) (v w : V) : Prop := ∃ next, succ v = some next ∧ w ∈ next

/-- What a walk through `todo` makes of the nodes entered before it. -/
structure Walked (succ : V → Option (List V)) (entered todo entered' : List V) : Prop where
  grows : entered <+: entered'
  nodup : entered.Nodup → entered'.Nodup
  enters : ∀ v ∈ todo, v ∈ entered'
  closed : ∀ v ∈ entered', v ∉ entered → ∀ w, Edge succ v w → w ∈ entered'
  reached : ∀ v ∈ entered', v ∉ entered → ∃ u ∈ todo, Relation.ReflTransGen (Edge succ) u v

omit [DecidableEq V] in
theorem Walked.nil (entered : List V) : Walked succ entered [] entered where
  grows := List.prefix_rfl
  nodup h := h
  enters := nofun
  closed _ hv hnot := absurd hv hnot
  reached _ hv hnot := absurd hv hnot

theorem Walked.cons {entered mid entered' todo : List V} {v : V}
    (hv : Walked succ entered [v] mid) (htodo : Walked succ mid todo entered') :
    Walked succ entered (v :: todo) entered' where
  grows := hv.grows.trans htodo.grows
  nodup h := htodo.nodup (hv.nodup h)
  enters w hw := by
    rcases List.mem_cons.mp hw with rfl | hw
    · exact htodo.grows.subset (hv.enters w (List.mem_singleton_self w))
    · exact htodo.enters w hw
  closed w hw hnot u hu := by
    by_cases hmid : w ∈ mid
    · exact htodo.grows.subset (hv.closed w hmid hnot u hu)
    · exact htodo.closed w hw hmid u hu
  reached w hw hnot := by
    by_cases hmid : w ∈ mid
    · obtain ⟨u, hu, hreach⟩ := hv.reached w hmid hnot
      exact ⟨u, List.mem_cons.mpr (.inl (List.mem_singleton.mp hu)), hreach⟩
    · obtain ⟨u, hu, hreach⟩ := htodo.reached w hw hmid
      exact ⟨u, List.mem_cons_of_mem _ hu, hreach⟩

omit [DecidableEq V] in
/-- A node that was entered is passed over. -/
theorem Walked.again {entered : List V} {v : V} (h : v ∈ entered) :
    Walked succ entered [v] entered where
  grows := List.prefix_rfl
  nodup h := h
  enters _ hw := List.mem_singleton.mp hw ▸ h
  closed _ hw hnot := absurd hw hnot
  reached _ hw hnot := absurd hw hnot

/-- A new node is entered, and what it leads to is walked through. -/
theorem Walked.first {entered entered' next : List V} {v : V} (h : v ∉ entered)
    (hnext : ∀ w, Edge succ v w ↔ w ∈ next) (hin : Walked succ (entered ++ [v]) next entered') :
    Walked succ entered [v] entered' where
  grows := (List.prefix_append _ _).trans hin.grows
  nodup hnd := hin.nodup (List.nodup_append.mpr ⟨hnd, List.nodup_singleton v,
    fun _ hw _ hv heq => h (List.mem_singleton.mp hv ▸ heq ▸ hw)⟩)
  enters w hw := by
    rw [List.mem_singleton.mp hw]
    exact hin.grows.subset (List.mem_append_right _ (List.mem_singleton_self v))
  closed w hw hnot u hu := by
    by_cases hv : w = v
    · rw [hv] at hu
      exact hin.enters u ((hnext u).mp hu)
    · exact hin.closed w hw (by simpa using ⟨hnot, hv⟩) u hu
  reached w hw hnot := by
    refine ⟨v, List.mem_singleton_self v, ?_⟩
    by_cases hv : w = v
    · rw [hv]
    · obtain ⟨u, hu, hreach⟩ := hin.reached w hw (by simpa using ⟨hnot, hv⟩)
      exact .head ((hnext u).mpr hu) hreach

theorem walked_enter {inside : List V → List V → Option (List V)} {entered entered' : List V} {v : V}
    (hin : ∀ next e, inside (entered ++ [v]) next = some e → Walked succ (entered ++ [v]) next e)
    (h : enter succ inside entered v = some entered') : Walked succ entered [v] entered' := by
  rw [enter] at h
  split_ifs at h with hmem
  · cases h
    exact .again hmem
  · cases hs : succ v with
    | none =>
      rw [hs] at h
      cases h
      have hnone : ∀ w, Edge succ v w ↔ w ∈ ([] : List V) := fun w => by simp [Edge, hs]
      exact .first hmem hnone (.nil _)
    | some next =>
      rw [hs] at h
      exact .first hmem (fun w => by simp [Edge, hs]) (hin next entered' h)

theorem walked_walk {depth : Nat} {entered todo entered' : List V}
    (h : walk succ depth entered todo = some entered') : Walked succ entered todo entered' := by
  induction depth generalizing entered todo entered' with
  | zero => cases h
  | succ depth ih =>
    rw [walk] at h
    induction todo generalizing entered with
    | nil =>
      cases h
      exact .nil _
    | cons v todo iht =>
      obtain ⟨mid, hv, hrest⟩ := Option.bind_eq_some_iff.mp (List.foldlM_cons.symm.trans h)
      exact (walked_enter (fun _ _ => ih) hv).cons (iht hrest)

/-- **A walk enters what can be reached.** -/
theorem mem_walk_iff {depth : Nat} {todo entered : List V}
    (h : walk succ depth [] todo = some entered) (v : V) :
    v ∈ entered ↔ ∃ u ∈ todo, Relation.ReflTransGen (Edge succ) u v := by
  have hw := walked_walk h
  refine ⟨fun hv => hw.reached v hv List.not_mem_nil, ?_⟩
  rintro ⟨u, hu, hreach⟩
  induction hreach with
  | refl => exact hw.enters u hu
  | tail _ hedge ih => exact hw.closed _ ih List.not_mem_nil _ hedge

/-! ## The end of a walk -/

/-- The nodes that are still to be gone into. -/
def ahead (nodes entered : List V) : Nat := (nodes.filter (· ∉ entered)).length

theorem ahead_anti {nodes entered entered' : List V} (h : entered <+: entered') :
    ahead nodes entered' ≤ ahead nodes entered := by
  refine (List.monotone_filter_right nodes fun v hv => ?_).length_le
  simp only [decide_eq_true_eq] at hv ⊢
  exact fun hmem => hv (h.subset hmem)

theorem ahead_concat {nodes entered : List V} {v : V} (hv : v ∈ nodes) (h : v ∉ entered) :
    ahead nodes (entered ++ [v]) < ahead nodes entered := by
  have hsplit : (nodes.filter (· ∉ entered ++ [v])) =
      (nodes.filter (· ∉ entered)).filter (· ≠ v) := by
    rw [List.filter_filter]
    refine List.filter_congr fun w _ => ?_
    simp [not_or, and_comm]
  rw [ahead, ahead, hsplit]
  refine List.length_filter_lt_length_iff_exists.mpr ⟨v, ?_, by simp⟩
  simpa using ⟨hv, h⟩

/-- **A walk comes to its end** if it may go deeper than there are nodes to go into. -/
theorem walk_ends {nodes : List V} (hnodes : ∀ v, succ v ≠ none → v ∈ nodes) {depth : Nat}
    {entered : List V} (h : ahead nodes entered < depth) (todo : List V) :
    ∃ entered', walk succ depth entered todo = some entered' := by
  induction depth generalizing entered todo with
  | zero => exact absurd h (Nat.not_lt_zero _)
  | succ depth ih =>
    rw [walk]
    induction todo generalizing entered with
    | nil => exact ⟨entered, rfl⟩
    | cons v todo iht =>
      have hv : ∃ mid, enter succ (walk succ depth) entered v = some mid := by
        rw [enter]
        split_ifs with hmem
        · exact ⟨_, rfl⟩
        · cases hs : succ v with
          | none => exact ⟨_, rfl⟩
          | some next =>
            have hlt := ahead_concat (hnodes v (by rw [hs]; exact Option.some_ne_none next)) hmem
            exact ih (by omega) next
      obtain ⟨mid, hmid⟩ := hv
      have hgrows := (walked_enter (fun _ _ => walked_walk) hmid).grows
      have hless : ahead nodes mid < depth + 1 := Nat.lt_of_le_of_lt (ahead_anti hgrows) h
      obtain ⟨entered', hrest⟩ := iht hless
      exact ⟨entered', by rw [List.foldlM_cons, hmid]; exact hrest⟩

end Lib.Walk
