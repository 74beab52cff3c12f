import Mathlib.Logic.Relation

/-!
# Deterministic machines and their observable behaviour

A machine is a step function `S → Step S O`: one more state, or a halt with an outcome. What an
observer sees of a run from `s` is the outcome it halts with (`Halts`) and, whether or not it
halts, every observation `obs` passes through on the way (`Observes`). Two states of two machines
are `ObsEq` when an observer cannot tell them apart: a machine that diverges is only `ObsEq` to
one that diverges with the same observations.

`ObsEq.of_sim` is the proof rule: a relation kept by matching steps, before which either side may
run unobserved (`Quiet`), and where either side may move alone as long as a measure goes down.
-/

namespace Lib

/-- One step of a machine. -/
inductive Step (S O : Type) where
  | next (s : S)
  | halt (o : O)

section
variable {S O T : Type} (step : S → Step S O)

/-- The run from `s` halts with `o` after `n` steps. -/
inductive HaltsIn : Nat → S → O → Prop
  | halt {s : S} {o : O} : step s = .halt o → HaltsIn 0 s o
  | next {n : Nat} {s s' : S} {o : O} : step s = .next s' → HaltsIn n s' o → HaltsIn (n + 1) s o

def Halts (s : S) (o : O) : Prop := ∃ n, HaltsIn step n s o

/-- `s'` is reached from `s` in `n` steps. -/
inductive StepsIn : Nat → S → S → Prop
  | refl (s : S) : StepsIn 0 s s
  | next {n : Nat} {s s' s'' : S} : step s = .next s' → StepsIn n s' s'' → StepsIn (n + 1) s s''

def Steps (s s' : S) : Prop := ∃ n, StepsIn step n s s'

/-- The run from `s` passes a state with observation `t`. -/
def Observes (obs : S → T) (s : S) (t : T) : Prop := ∃ s', Steps step s s' ∧ obs s' = t

end

section
variable {S O : Type} {step : S → Step S O}

theorem Steps.refl (s : S) : Steps step s s := ⟨0, .refl s⟩

theorem Steps.head {s s' s'' : S} (h : step s = .next s') (h' : Steps step s' s'') :
    Steps step s s'' := by
  obtain ⟨n, hn⟩ := h'
  exact ⟨n + 1, .next h hn⟩

theorem Steps.single {s s' : S} (h : step s = .next s') : Steps step s s' :=
  .head h (.refl s')

theorem Steps.trans {s s' s'' : S} (h : Steps step s s') (h' : Steps step s' s'') :
    Steps step s s'' := by
  obtain ⟨n, hn⟩ := h
  induction hn with
  | refl => exact h'
  | next hs _ ih => exact .head hs (ih h')

theorem Halts.of_halt {s : S} {o : O} (h : step s = .halt o) : Halts step s o := ⟨0, .halt h⟩

theorem Halts.head {s s' : S} {o : O} (h : step s = .next s') (h' : Halts step s' o) :
    Halts step s o := by
  obtain ⟨n, hn⟩ := h'
  exact ⟨n + 1, .next h hn⟩

theorem Halts.of_steps {s s' : S} {o : O} (h : Steps step s s') (h' : Halts step s' o) :
    Halts step s o := by
  obtain ⟨n, hn⟩ := h
  induction hn with
  | refl => exact h'
  | next hs _ ih => exact .head hs (ih h')

/-- The machine is deterministic: a halting run has one outcome. -/
theorem Halts.unique {s : S} {o o' : O} (h : Halts step s o) (h' : Halts step s o') : o = o' := by
  obtain ⟨n, hn⟩ := h
  obtain ⟨m, hm⟩ := h'
  induction hn generalizing m with
  | halt hs =>
    cases hm with
    | halt hs' => exact Step.halt.inj (hs.symm.trans hs')
    | next hs' _ => rw [hs] at hs'; cases hs'
  | next hs _ ih =>
    cases hm with
    | halt hs' => rw [hs] at hs'; cases hs'
    | next hs' hr => rw [hs] at hs'; cases hs'; exact ih _ hr

/-- Run for at most `n` steps. -/
def run (step : S → Step S O) : Nat → S → Option O
  | 0, _ => none
  | n + 1, s =>
    match step s with
    | .next s' => run step n s'
    | .halt o => some o

theorem Halts.of_run {n : Nat} {s : S} {o : O} (h : run step n s = some o) : Halts step s o := by
  induction n generalizing s with
  | zero => cases h
  | succ n ih =>
    simp only [run] at h
    split at h
    · rename_i s' hs; exact .head hs (ih h)
    · rename_i o' hs; cases h; exact .of_halt hs

end

/-! ## Quiet runs -/

section
variable {S O T : Type}

/-- `s'` is reached from `s` by steps that do not change the observation. -/
inductive Quiet (step : S → Step S O) (obs : S → T) : S → S → Prop
  | refl (s : S) : Quiet step obs s s
  | next {s s' s'' : S} : step s = .next s' → obs s' = obs s → Quiet step obs s' s'' →
      Quiet step obs s s''

variable {step : S → Step S O} {obs : S → T}

theorem Quiet.steps {s s' : S} (h : Quiet step obs s s') : Steps step s s' := by
  induction h with
  | refl s => exact .refl s
  | next hs _ _ ih => exact .head hs ih

theorem Quiet.trans {s s' s'' : S} (h : Quiet step obs s s') (h' : Quiet step obs s' s'') :
    Quiet step obs s s'' := by
  induction h with
  | refl s => exact h'
  | next hs hobs _ ih => exact .next hs hobs (ih h')

/-- What halts after a quiet run halts as the run does. -/
theorem Quiet.haltsIn {s u : S} (hq : Quiet step obs s u) {n : Nat} {o : O}
    (h : HaltsIn step n s o) : ∃ k, k ≤ n ∧ HaltsIn step k u o := by
  induction hq generalizing n with
  | refl s => exact ⟨n, Nat.le_refl n, h⟩
  | next hs _ _ ih =>
    cases h with
    | halt hs' => rw [hs] at hs'; cases hs'
    | next hs' hn =>
      rw [hs] at hs'; cases hs'
      obtain ⟨k, hk, hu⟩ := ih hn
      exact ⟨k, by omega, hu⟩

/-- A run either ends within the quiet part or goes past it. -/
theorem Quiet.stepsIn {s u t : S} (hq : Quiet step obs s u) {n : Nat} {s' : S}
    (h : StepsIn step n s s') (hu : step u = .next t) :
    obs s' = obs s ∨ ∃ k, k < n ∧ StepsIn step k t s' := by
  induction hq generalizing n with
  | refl s =>
    cases h with
    | refl => exact .inl rfl
    | next hs hn => rw [hs] at hu; cases hu; exact .inr ⟨_, by omega, hn⟩
  | next hs hobs _ ih =>
    cases h with
    | refl => exact .inl rfl
    | next hs' hn =>
      rw [hs] at hs'; cases hs'
      rcases ih hn hu with he | ⟨k, hk, hk'⟩
      · exact .inl (he.trans hobs)
      · exact .inr ⟨k, by omega, hk'⟩

end

section
variable {S S' O T : Type}

/-- An observer cannot tell the run from `s` from the run from `s'`. -/
structure ObsEq (step : S → Step S O) (obs : S → T) (step' : S' → Step S' O) (obs' : S' → T)
    (s : S) (s' : S') : Prop where
  halts : ∀ o, Halts step s o ↔ Halts step' s' o
  observes : ∀ t, Observes step obs s t ↔ Observes step' obs' s' t

variable {step : S → Step S O} {obs : S → T} {step' : S' → Step S' O} {obs' : S' → T}

theorem ObsEq.refl (step : S → Step S O) (obs : S → T) (s : S) : ObsEq step obs step obs s s :=
  ⟨fun _ => Iff.rfl, fun _ => Iff.rfl⟩

theorem ObsEq.trans {S'' : Type} {step'' : S'' → Step S'' O} {obs'' : S'' → T} {s : S} {s' : S'}
    {s'' : S''} (h : ObsEq step obs step' obs' s s') (h' : ObsEq step' obs' step'' obs'' s' s'') :
    ObsEq step obs step'' obs'' s s'' :=
  ⟨fun o => (h.halts o).trans (h'.halts o), fun t => (h.observes t).trans (h'.observes t)⟩

/-- What related states can do: move together, either side after a run nobody observes, halt
together, or one of them moves alone and the measure goes down. -/
inductive Match (step : S → Step S O) (obs : S → T) (step' : S' → Step S' O) (obs' : S' → T)
    (R : S → S' → Prop) (d : S → S' → Nat) (s : S) (s' : S') : Prop
  | both {u t : S} {p q : S'} : Quiet step obs s u → Quiet step' obs' s' p →
      step u = .next t → step' p = .next q → R t q → Match step obs step' obs' R d s s'
  | halt {o : O} : step s = .halt o → step' s' = .halt o → Match step obs step' obs' R d s s'
  | left {t : S} : step s = .next t → R t s' → d t s' < d s s' →
      Match step obs step' obs' R d s s'
  | right {q : S'} : step' s' = .next q → R s q → d s q < d s s' →
      Match step obs step' obs' R d s s'

/-- One step on either side. -/
theorem Match.one {R : S → S' → Prop} {d : S → S' → Nat} {s t : S} {s' q : S'}
    (h : step s = .next t) (h' : step' s' = .next q) (hR : R t q) :
    Match step obs step' obs' R d s s' := .both (.refl s) (.refl s') h h' hR

theorem Match.symm {R : S → S' → Prop} {d : S → S' → Nat} {s : S} {s' : S'}
    (h : Match step obs step' obs' R d s s') :
    Match step' obs' step obs (fun a b => R b a) (fun a b => d b a) s' s := by
  cases h with
  | both h1 h2 h3 h4 h5 => exact .both h2 h1 h4 h3 h5
  | halt h1 h2 => exact .halt h2 h1
  | left h1 h2 h3 => exact .right h1 h2 h3
  | right h1 h2 h3 => exact .left h1 h2 h3

section
variable {R : S → S' → Prop} {d : S → S' → Nat}

theorem halts_of_match (hR : ∀ s s', R s s' → Match step obs step' obs' R d s s') {n : Nat} {s : S}
    {o : O} (h : HaltsIn step n s o) : ∀ {s' : S'}, R s s' → Halts step' s' o := by
  induction n using Nat.strongRecOn generalizing s with
  | ind n ihn =>
    intro s' hr
    -- the other side may move alone; the measure bounds how often
    generalize hm : d s s' = m
    induction m using Nat.strongRecOn generalizing s n s' with
    | ind m ihm =>
      subst hm
      cases hR s s' hr with
      | both hq hq' h1 h2 h3 =>
        obtain ⟨k, hk, hu⟩ := hq.haltsIn h
        cases hu with
        | halt hs => rw [hs] at h1; cases h1
        | next hs hn =>
          rw [hs] at h1; cases h1
          exact .of_steps hq'.steps (.head h2 (ihn _ (by omega) hn h3))
      | halt h1 h2 =>
        cases h with
        | halt hs => rw [hs] at h1; cases h1; exact .of_halt h2
        | next hs _ => rw [hs] at h1; cases h1
      | left h1 h2 _ =>
        cases h with
        | halt hs => rw [hs] at h1; cases h1
        | next hs hn => rw [hs] at h1; cases h1; exact ihn _ (by omega) hn h2
      | right h1 h2 h3 => exact .head h1 (ihm _ h3 n ihn h h2 rfl)

theorem observes_of_match (hR : ∀ s s', R s s' → Match step obs step' obs' R d s s')
    (ho : ∀ s s', R s s' → obs s = obs' s') {n : Nat} {s t : S} (h : StepsIn step n s t) :
    ∀ {s' : S'}, R s s' → Observes step' obs' s' (obs t) := by
  induction n using Nat.strongRecOn generalizing s with
  | ind n ihn =>
    intro s' hr
    generalize hm : d s s' = m
    induction m using Nat.strongRecOn generalizing s n s' with
    | ind m ihm =>
      subst hm
      cases hR s s' hr with
      | both hq hq' h1 h2 h3 =>
        rcases hq.stepsIn h h1 with hobs | ⟨k, hk, hn⟩
        · exact ⟨s', .refl _, by rw [hobs]; exact (ho _ _ hr).symm⟩
        · obtain ⟨u, hu, he⟩ := ihn _ hk hn h3
          exact ⟨u, hq'.steps.trans (.head h2 hu), he⟩
      | halt h1 h2 =>
        cases h with
        | refl => exact ⟨s', .refl _, (ho _ _ hr).symm⟩
        | next hs hn => rw [hs] at h1; cases h1
      | left h1 h2 _ =>
        cases h with
        | refl => exact ⟨s', .refl _, (ho _ _ hr).symm⟩
        | next hs hn => rw [hs] at h1; cases h1; exact ihn _ (by omega) hn h2
      | right h1 h2 h3 =>
        obtain ⟨u, hu, he⟩ := ihm _ h3 _ ihn h h2 rfl
        exact ⟨u, .head h1 hu, he⟩

/-- **The simulation rule.** Related states that match, with equal observations, are `ObsEq`. -/
theorem ObsEq.of_sim (hR : ∀ s s', R s s' → Match step obs step' obs' R d s s')
    (ho : ∀ s s', R s s' → obs s = obs' s') {s : S} {s' : S'} (h : R s s') :
    ObsEq step obs step' obs' s s' := by
  have hR' : ∀ a b, R b a → Match step' obs' step obs (fun a b => R b a) (fun a b => d b a) a b :=
    fun a b hab => (hR b a hab).symm
  refine ⟨fun o => ⟨?_, ?_⟩, fun t => ⟨?_, ?_⟩⟩
  · rintro ⟨n, hn⟩; exact halts_of_match hR hn h
  · rintro ⟨n, hn⟩; exact halts_of_match hR' hn h
  · rintro ⟨u, ⟨n, hn⟩, rfl⟩; exact observes_of_match hR ho hn h
  · rintro ⟨u, ⟨n, hn⟩, rfl⟩
    exact observes_of_match hR' (fun a b hab => (ho b a hab).symm) hn h

end

/-- The lockstep case: both sides always move together. -/
theorem ObsEq.of_lockstep {R : S → S' → Prop}
    (hR : ∀ s s', R s s' → (∃ t t', step s = .next t ∧ step' s' = .next t' ∧ R t t') ∨
      ∃ o, step s = .halt o ∧ step' s' = .halt o)
    (ho : ∀ s s', R s s' → obs s = obs' s') {s : S} {s' : S'} (h : R s s') :
    ObsEq step obs step' obs' s s' := by
  refine ObsEq.of_sim (d := fun _ _ => 0) (fun s s' hr => ?_) ho h
  rcases hR s s' hr with ⟨t, t', h1, h2, h3⟩ | ⟨o, h1, h2⟩
  · exact .one h1 h2 h3
  · exact .halt h1 h2

end

end Lib
