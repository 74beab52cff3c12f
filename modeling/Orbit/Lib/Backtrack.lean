import Mathlib.Logic.Relation

/-!
# Committed backtracking

Sequences of atoms that may repeat and of groups of alternatives, over any atoms that read from one
position to at most one other. `Seq.Ends` is what a sequence means; `Seq.first` is a matcher that
tries repetitions from the longest on and commits to the first end of a group. It finds an end if
there is one (`Seq.first_isSome`) where the groups that it tries have one end, and the longest
(`Seq.first_longest`) where no group crosses. With other atoms it finds the same if these read alike
where they are tried (`Seq.first_congr`), and no more if they do where they can be
(`Seq.ends_of_visits`).
-/

namespace Lib.Backtrack

open Relation (ReflGen TransGen ReflTransGen)

/-! ## Repetition -/

inductive Rep where
  | one | star | plus | opt
  deriving DecidableEq, Repr

/-- From where to where the repetitions of an atom read. -/
def Rep.Ends : Rep → (Nat → Nat → Prop) → Nat → Nat → Prop
  | .one, R => R
  | .star, R => ReflTransGen R
  | .plus, R => TransGen R
  | .opt, R => ReflGen R

/-- The positions at which an atom is tried. -/
def Rep.Tried : Rep → (Nat → Nat → Prop) → (Nat → Prop) → Nat → Prop
  | .one, _, S => S
  | .opt, _, S => S
  | .star, R, S | .plus, R, S => fun j => ∃ i, S i ∧ ReflTransGen R i j

/-- The positions that are reached. -/
def Reached (R : Nat → Nat → Prop) (S : Nat → Prop) (j : Nat) : Prop := ∃ i, S i ∧ R i j

/-- The positions of an atom that repeats until it fails or stands still. -/
def chain (once : Nat → Option Nat) : (rounds : Nat) → Nat → List Nat
  | 0, i => [i]
  | rounds + 1, i =>
    match once i with
    | none => [i]
    | some j => if j = i then [i] else i :: chain once rounds j

/-- The repetitions of an atom, and what follows it. -/
def Rep.run (rounds : Nat) (once rest : Nat → Option Nat) : Rep → Nat → Option Nat
  | .one, i => (once i).bind rest
  | .star, i => (chain once rounds i).reverse.findSome? rest
  | .plus, i => (once i).bind fun j => (chain once rounds j).reverse.findSome? rest
  | .opt, i => ((once i).bind rest).or (rest i)

/-- Where the relation starts earlier and ends later, it also reads from the later start. -/
def Uncrossed (S : Nat → Prop) (R : Nat → Nat → Prop) : Prop :=
  ∀ i i' j j', S i → S i' → i < i' → R i j → R i' j' → j' < j → R i' j

section
variable {once rest : Nat → Option Nat} {R E : Nat → Nat → Prop}

theorem chain_succ (rounds i : Nat) :
    chain once (rounds + 1) i =
      match once i with
      | none => [i]
      | some j => if j = i then [i] else i :: chain once rounds j := rfl

theorem mem_chain_self (rounds i : Nat) : i ∈ chain once rounds i := by
  cases rounds with
  | zero => exact List.mem_singleton_self i
  | succ rounds =>
    rw [chain_succ]
    split
    · exact List.mem_singleton_self i
    · split
      · exact List.mem_singleton_self i
      · exact List.mem_cons_self

theorem chain_sound (honce : ∀ i j, once i = some j → R i j) {rounds i m : Nat}
    (h : m ∈ chain once rounds i) : ReflTransGen R i m := by
  induction rounds generalizing i with
  | zero =>
    rw [List.mem_singleton.mp h]
  | succ rounds ih =>
    rw [chain_succ] at h
    split at h
    · rw [List.mem_singleton.mp h]
    · next j hj =>
      split at h
      · rw [List.mem_singleton.mp h]
      · rcases List.mem_cons.mp h with rfl | h
        · exact .refl
        · exact (ih h).head (honce i j hj)

/-- **Where an atom reads to one position, its repetitions are those of the chain.** -/
theorem chain_complete {stop : Nat} (T : Nat → Prop) (hT : ∀ i j, T i → R i j → T j)
    (honce : ∀ i j, T i → R i j → once i = some j)
    (hstop : ∀ i j, once i = some j → i ≤ j ∧ j ≤ stop) {rounds i m : Nat} (hi : T i)
    (hrounds : stop < rounds + i) (h : ReflTransGen R i m) : m ∈ chain once rounds i := by
  induction rounds generalizing i with
  | zero =>
    rcases h.cases_head with rfl | ⟨k, hk, -⟩
    · exact List.mem_singleton_self i
    · have := hstop i k (honce i k hi hk)
      omega
  | succ rounds ih =>
    rcases h.cases_head with rfl | ⟨k, hk, hrest⟩
    · exact mem_chain_self _ _
    · have hsome := honce i k hi hk
      rw [chain_succ, hsome]
      dsimp only
      split
      · next heq =>
        -- the atom stands still, and reads nowhere else
        have hstill : ∀ j, ReflTransGen R i j → j = i := by
          intro j hj
          induction hj with
          | refl => rfl
          | tail _ hstep ih =>
            rw [ih] at hstep
            rw [honce i _ hi hstep, Option.some.injEq] at hsome
            rw [hsome, heq]
        rw [hstill m h]
        exact List.mem_singleton_self i
      · have := (hstop i k hsome).1
        exact List.mem_cons_of_mem _ (ih (hT i k hi hk) (by omega) hrest)

theorem chain_increasing (hle : ∀ i j, once i = some j → i ≤ j) (rounds i : Nat) :
    (chain once rounds i).Pairwise (· < ·) ∧ ∀ m ∈ chain once rounds i, i ≤ m := by
  induction rounds generalizing i with
  | zero =>
    exact ⟨List.pairwise_singleton _ _, fun m hm => Nat.le_of_eq (List.mem_singleton.mp hm).symm⟩
  | succ rounds ih =>
    have hone : [i].Pairwise (· < ·) ∧ ∀ m ∈ [i], i ≤ m :=
      ⟨List.pairwise_singleton _ _, fun m hm => Nat.le_of_eq (List.mem_singleton.mp hm).symm⟩
    rw [chain_succ]
    split
    · exact hone
    · next j hj =>
      split
      · exact hone
      · have hij := hle i j hj
        obtain ⟨hsorted, hbound⟩ := ih j
        refine ⟨List.pairwise_cons.mpr ⟨fun m hm => ?_, hsorted⟩, fun m hm => ?_⟩
        · have := hbound m hm
          omega
        · rcases List.mem_cons.mp hm with rfl | hm
          · exact Nat.le_refl _
          · exact Nat.le_trans hij (hbound m hm)

/-! ## Soundness -/

theorem Rep.run_sound (honce : ∀ i j, once i = some j → R i j)
    (hrest : ∀ i e, rest i = some e → E i e) (rounds : Nat) {r : Rep} {i e : Nat}
    (h : r.run rounds once rest i = some e) : ∃ m, r.Ends R i m ∧ E m e := by
  have hstar : ∀ j, (chain once rounds j).reverse.findSome? rest = some e →
      ∃ m, ReflTransGen R j m ∧ E m e := by
    intro j hj
    obtain ⟨m, hm, he⟩ := List.exists_of_findSome?_eq_some hj
    exact ⟨m, chain_sound honce (List.mem_reverse.mp hm), hrest m e he⟩
  cases r with
  | one =>
    obtain ⟨m, hm, he⟩ := Option.bind_eq_some_iff.mp h
    exact ⟨m, honce i m hm, hrest m e he⟩
  | star => exact hstar i h
  | plus =>
    obtain ⟨j, hj, he⟩ := Option.bind_eq_some_iff.mp h
    obtain ⟨m, hm, he⟩ := hstar j he
    exact ⟨m, TransGen.head' (honce i j hj) hm, he⟩
  | opt =>
    rcases Option.or_eq_some_iff.mp h with h | ⟨-, h⟩
    · obtain ⟨m, hm, he⟩ := Option.bind_eq_some_iff.mp h
      exact ⟨m, .single (honce i m hm), hrest m e he⟩
    · exact ⟨i, .refl, hrest i e h⟩

/-! ## The first success -/

/-- What follows an atom, at the positions `P`: it succeeds where it can. -/
def Complete (P : Nat → Prop) (rest : Nat → Option Nat) (E : Nat → Nat → Prop) : Prop :=
  ∀ m e, P m → E m e → ∃ e', rest m = some e'

/-- What follows an atom, at the positions `P`: it succeeds with its last end. -/
def Longest (P : Nat → Prop) (rest : Nat → Option Nat) (E : Nat → Nat → Prop) : Prop :=
  ∀ m e e', P m → rest m = some e → E m e' → e' ≤ e

variable {P : Nat → Prop}

theorem findSome_complete (hrest : Complete P rest E) {ps : List Nat} {m e : Nat} (hm : m ∈ ps)
    (hP : P m) (he : E m e) : ∃ e', ps.reverse.findSome? rest = some e' := by
  obtain ⟨e', he'⟩ := hrest m e hP he
  cases hfind : ps.reverse.findSome? rest with
  | some e'' => exact ⟨e'', rfl⟩
  | none =>
    rw [List.findSome?_eq_none_iff] at hfind
    rw [hfind m (List.mem_reverse.mpr hm)] at he'
    cases he'

/-- Of increasing positions, the last one that succeeds has the last end. -/
theorem findSome_longest (hsound : ∀ m e, rest m = some e → E m e) (hrest : Complete P rest E)
    (hlong : Longest P rest E) (hcross : Uncrossed P E) {ps : List Nat}
    (hps : ps.Pairwise (· < ·)) (hP : ∀ m ∈ ps, P m) {m e e' : Nat}
    (hfind : ps.reverse.findSome? rest = some e) (hm : m ∈ ps) (he' : E m e') : e' ≤ e := by
  obtain ⟨later, k, earlier, hsplit, hk, hnone⟩ := List.findSome?_eq_some_iff.mp hfind
  have hsorted := List.pairwise_reverse.mpr hps
  rw [hsplit, List.pairwise_append] at hsorted
  have hmem : ∀ x ∈ later ++ k :: earlier, P x := fun x hx =>
    hP x (List.mem_reverse.mp (hsplit ▸ hx))
  have hPk := hmem k (List.mem_append_right _ List.mem_cons_self)
  have hmr : m ∈ later ++ k :: earlier := hsplit ▸ List.mem_reverse.mpr hm
  rcases List.mem_append.mp hmr with hm | hm
  · obtain ⟨e'', he''⟩ := hrest m e' (hmem m (List.mem_append_left _ hm)) he'
    rw [hnone m hm] at he''
    cases he''
  · rcases List.mem_cons.mp hm with rfl | hm
    · exact hlong m e e' hPk hk he'
    · have hlt : m < k := (List.pairwise_cons.mp hsorted.2.1).1 m hm
      rcases Nat.lt_or_ge e e' with h | h
      · exact hlong k e e' hPk hk
          (hcross m k e' e (hmem m (List.mem_append_right _ (List.mem_cons_of_mem _ hm))) hPk hlt
            he' (hsound k e hk) h)
      · exact h

/-! ## Completeness -/

section
variable {S : Nat → Prop} {stop rounds : Nat} {r : Rep}

/-- The chain from a position that is tried. -/
theorem chain_tried (honce : ∀ i j, Rep.star.Tried R S i → R i j → once i = some j)
    (hstop : ∀ i j, once i = some j → i ≤ j ∧ j ≤ stop) (hrounds : stop < rounds) {i j m : Nat}
    (hi : S i) (hij : ReflTransGen R i j) (hm : ReflTransGen R j m) : m ∈ chain once rounds j :=
  chain_complete (Rep.star.Tried R S) (fun j _ ⟨i, hi, hj⟩ hk => ⟨i, hi, hj.tail hk⟩) honce hstop
    ⟨i, hi, hij⟩ (by omega) hm

/-- **Repetitions succeed where they can**: at the positions at which the atom is tried it reads to
one position. -/
theorem Rep.run_complete (honce : ∀ i j, r.Tried R S i → R i j → once i = some j)
    (hstop : ∀ i j, once i = some j → i ≤ j ∧ j ≤ stop) (hrounds : stop < rounds)
    (hrest : Complete (Reached (r.Ends R) S) rest E) {i m e : Nat} (hi : S i)
    (hm : r.Ends R i m) (he : E m e) : ∃ e', r.run rounds once rest i = some e' := by
  have hreached : Reached (r.Ends R) S m := ⟨i, hi, hm⟩
  cases r with
  | one =>
    obtain ⟨e', he'⟩ := hrest m e hreached he
    exact ⟨e', Option.bind_eq_some_iff.mpr ⟨m, honce i m hi hm, he'⟩⟩
  | star =>
    have hchain := chain_tried honce hstop hrounds hi .refl hm
    exact findSome_complete hrest hchain hreached he
  | plus =>
    obtain ⟨k, hk, hkm⟩ := TransGen.head'_iff.mp hm
    have hchain := chain_tried honce hstop hrounds hi (.single hk) hkm
    obtain ⟨e', he'⟩ := findSome_complete hrest hchain hreached he
    exact ⟨e', Option.bind_eq_some_iff.mpr ⟨k, honce i k ⟨i, hi, .refl⟩ hk, he'⟩⟩
  | opt =>
    obtain ⟨e', he'⟩ := hrest m e hreached he
    cases hfirst : (once i).bind rest with
    | some e'' => exact ⟨e'', by rw [Rep.run, hfirst]; rfl⟩
    | none =>
      rcases hm with _ | hm
      · exact ⟨e', by rw [Rep.run, hfirst]; exact he'⟩
      · rw [honce i m hi hm, Option.bind_some, he'] at hfirst
        cases hfirst

/-- **Repetitions succeed with their last end**, where what follows them does and does not cross. -/
theorem Rep.run_longest (hsound : ∀ i j, once i = some j → R i j)
    (honce : ∀ i j, r.Tried R S i → R i j → once i = some j)
    (hstop : ∀ i j, once i = some j → i ≤ j ∧ j ≤ stop) (hrounds : stop < rounds)
    (hrsound : ∀ m e, rest m = some e → E m e)
    (hrest : Complete (Reached (r.Ends R) S) rest E)
    (hlong : Longest (Reached (r.Ends R) S) rest E)
    (hcross : Uncrossed (Reached (r.Ends R) S) E) {i m e e' : Nat} (hi : S i)
    (hrun : r.run rounds once rest i = some e) (hm : r.Ends R i m) (he' : E m e') : e' ≤ e := by
  have hle : ∀ i j, once i = some j → i ≤ j := fun i j h => (hstop i j h).1
  cases r with
  | one =>
    obtain ⟨k, hk, he⟩ := Option.bind_eq_some_iff.mp hrun
    rw [honce i m hi hm, Option.some.injEq] at hk
    exact hlong m e e' ⟨i, hi, hm⟩ (hk ▸ he) he'
  | star =>
    have hchain := chain_tried honce hstop hrounds hi .refl hm
    exact findSome_longest hrsound hrest hlong hcross (chain_increasing hle rounds i).1
      (fun k hk => ⟨i, hi, chain_sound hsound hk⟩) hrun hchain he'
  | plus =>
    obtain ⟨k, hk, hkm⟩ := TransGen.head'_iff.mp hm
    obtain ⟨k', hk', hfind⟩ := Option.bind_eq_some_iff.mp hrun
    rw [honce i k ⟨i, hi, .refl⟩ hk, Option.some.injEq] at hk'
    rw [← hk'] at hfind
    have hchain := chain_tried honce hstop hrounds hi (.single hk) hkm
    exact findSome_longest hrsound hrest hlong hcross (chain_increasing hle rounds k).1
      (fun j hj => ⟨i, hi, TransGen.head' hk (chain_sound hsound hj)⟩) hfind hchain he'
  | opt =>
    have hself : Reached (Rep.opt.Ends R) S i := ⟨i, hi, .refl⟩
    cases hfirst : (once i).bind rest with
    | some e'' =>
      rw [Rep.run, hfirst, Option.some_or, Option.some.injEq] at hrun
      rw [← hrun]
      obtain ⟨k, hk, he⟩ := Option.bind_eq_some_iff.mp hfirst
      have hkr : Reached (Rep.opt.Ends R) S k := ⟨i, hi, .single (hsound i k hk)⟩
      rcases hm with _ | hm
      · rcases Nat.eq_or_lt_of_le (hle i k hk) with rfl | hlt
        · exact hlong i e'' e' hself he he'
        · rcases Nat.lt_or_ge e'' e' with h | h
          · exact hlong k e'' e' hkr he
              (hcross i k e' e'' hself hkr hlt he' (hrsound k e'' he) h)
          · exact h
      · rw [honce i m hi hm, Option.some.injEq] at hk
        exact hlong m e'' e' ⟨i, hi, .single hm⟩ (hk ▸ he) he'
    | none =>
      rw [Rep.run, hfirst, Option.none_or] at hrun
      rcases hm with _ | hm
      · exact hlong i e e' hself hrun he'
      · obtain ⟨e'', he''⟩ := hrest m e' ⟨i, hi, .single hm⟩ he'
        rw [honce i m hi hm, Option.bind_some, he''] at hfirst
        cases hfirst

end

end

/-! ## Sequences and groups -/

mutual

inductive Atom (ι : Type) where
  | leaf (x : ι)
  | group (alts : Alts ι)

inductive Seq (ι : Type) where
  | nil
  | cons (a : Atom ι) (r : Rep) (s : Seq ι)

inductive Alts (ι : Type) where
  | last (s : Seq ι)
  | or (s : Seq ι) (alts : Alts ι)

end

variable {ι : Type} (step : ι → Nat → Option Nat)

mutual

def Atom.Ends : Atom ι → Nat → Nat → Prop
  | .leaf x, i, j => step x i = some j
  | .group alts, i, j => alts.Ends i j

def Seq.Ends : Seq ι → Nat → Nat → Prop
  | .nil, i, j => i = j
  | .cons a r s, i, j => ∃ m, r.Ends a.Ends i m ∧ s.Ends m j

def Alts.Ends : Alts ι → Nat → Nat → Prop
  | .last s, i, j => s.Ends i j
  | .or s alts, i, j => s.Ends i j ∨ alts.Ends i j

end

variable (stop : Nat)

mutual

/-- An atom: a group is refused at the end, and ends where its first alternative does. -/
def Atom.once : Atom ι → Nat → Option Nat
  | .leaf x, i => step x i
  | .group alts, i => if stop ≤ i then none else alts.first i

def Seq.first : Seq ι → Nat → Option Nat
  | .nil, i => some i
  | .cons a r s, i => r.run (stop + 1) a.once s.first i

def Alts.first : Alts ι → Nat → Option Nat
  | .last s, i => s.first i
  | .or s alts, i => (s.first i).or (alts.first i)

end

mutual

/-- Where a group is tried it has at most one end, and none at the end of the text. -/
def Atom.Settled : Atom ι → (Nat → Prop) → Prop
  | .leaf _, _ => True
  | .group alts, S => (∀ i j, S i → alts.Ends step i j → i < stop) ∧
      (∀ i j j', S i → alts.Ends step i j → alts.Ends step i j' → j = j') ∧
      alts.Settled fun i => S i ∧ i < stop

def Seq.Settled : Seq ι → (Nat → Prop) → Prop
  | .nil, _ => True
  | .cons a r s, S => a.Settled (r.Tried (a.Ends step) S) ∧
      s.Settled (Reached (r.Ends (a.Ends step)) S)

def Alts.Settled : Alts ι → (Nat → Prop) → Prop
  | .last s, S => s.Settled S
  | .or s alts, S => s.Settled S ∧ alts.Settled S

end

/-- No group of the sequence crosses. -/
def Seq.Straight : Seq ι → (Nat → Prop) → Prop
  | .nil, _ => True
  | .cons a r s, S => (match a with
      | .leaf _ => True
      | .group _ => Uncrossed S (r.Ends (a.Ends step))) ∧
      s.Straight (Reached (r.Ends (a.Ends step)) S)

/-- The positions at which what follows an atom is tried: those behind which no position that is
reached from the same start has an end. -/
def Rep.Passed (r : Rep) (R E : Nat → Nat → Prop) (S : Nat → Prop) (m : Nat) : Prop :=
  ∃ i, S i ∧ r.Ends R i m ∧ ∀ m' e, m < m' → r.Ends R i m' → ¬ E m' e

section
variable (P : ι → Nat → Prop)

mutual

/-- Every leaf that is tried from `S` on has the property at its position, as far as groups are
settled. -/
def Atom.Tries : Atom ι → (Nat → Prop) → Prop
  | .leaf x, S => ∀ i, S i → P x i
  | .group alts, S => alts.Tries fun i => S i ∧ i < stop

def Seq.Tries : Seq ι → (Nat → Prop) → Prop
  | .nil, _ => True
  | .cons a r s, S => a.Tries (r.Tried (a.Ends step) S) ∧
      s.Tries (r.Passed (a.Ends step) (s.Ends step) S)

def Alts.Tries : Alts ι → (Nat → Prop) → Prop
  | .last s, S => s.Tries S
  | .or s alts, S => s.Tries S ∧ alts.Tries fun i => S i ∧ ∀ j, ¬ s.Ends step i j

end

mutual

/-- Every leaf that can be reached from `S` has the property at its position. -/
def Atom.Visits : Atom ι → (Nat → Prop) → Prop
  | .leaf x, S => ∀ i, S i → P x i
  | .group alts, S => alts.Visits S

def Seq.Visits : Seq ι → (Nat → Prop) → Prop
  | .nil, _ => True
  | .cons a r s, S => a.Visits (r.Tried (a.Ends step) S) ∧
      s.Visits (Reached (r.Ends (a.Ends step)) S)

def Alts.Visits : Alts ι → (Nat → Prop) → Prop
  | .last s, S => s.Visits S
  | .or s alts, S => s.Visits S ∧ alts.Visits S

end

end

/-- Atoms read forwards, and not past the end. -/
def Bounded : Prop := ∀ x i j, step x i = some j → i ≤ j ∧ j ≤ stop

/-! ## What the matcher finds -/

section
variable {step : ι → Nat → Option Nat} {stop : Nat}

theorem Atom.once_group (alts : Alts ι) (i : Nat) :
    (Atom.group alts).once step stop i = if stop ≤ i then none else alts.first step stop i := rfl

mutual

theorem Atom.once_sound (a : Atom ι) {i j : Nat} (h : a.once step stop i = some j) :
    a.Ends step i j := by
  cases a with
  | leaf x => exact h
  | group alts =>
    rw [Atom.once_group] at h
    split at h
    · cases h
    · exact Alts.first_sound alts h

/-- **The matcher finds ends only.** -/
theorem Seq.first_sound (s : Seq ι) {i j : Nat} (h : s.first step stop i = some j) :
    s.Ends step i j := by
  cases s with
  | nil => exact Option.some.inj h
  | cons a r s =>
    exact Rep.run_sound (fun _ _ => Atom.once_sound a) (fun _ _ => Seq.first_sound s) _ h

theorem Alts.first_sound (alts : Alts ι) {i j : Nat} (h : alts.first step stop i = some j) :
    alts.Ends step i j := by
  cases alts with
  | last s => exact Seq.first_sound s h
  | or s alts =>
    rcases Option.or_eq_some_iff.mp h with h | ⟨-, h⟩
    · exact .inl (Seq.first_sound s h)
    · exact .inr (Alts.first_sound alts h)

end

theorem Rep.ends_bound {R : Nat → Nat → Prop} {r : Rep}
    (hR : ∀ i j, R i j → i ≤ j ∧ (i ≤ stop → j ≤ stop)) {i j : Nat} (h : r.Ends R i j) :
    i ≤ j ∧ (i ≤ stop → j ≤ stop) := by
  have hstar : ∀ {j}, ReflTransGen R i j → i ≤ j ∧ (i ≤ stop → j ≤ stop) := by
    intro j h
    induction h with
    | refl => exact ⟨Nat.le_refl i, id⟩
    | tail _ hk ih =>
      have := hR _ _ hk
      exact ⟨Nat.le_trans ih.1 this.1, fun hi => this.2 (ih.2 hi)⟩
  cases r with
  | one => exact hR i j h
  | star => exact hstar h
  | plus => exact hstar h.to_reflTransGen
  | opt => exact hstar h.to_reflTransGen

mutual

theorem Atom.ends_bound (hstep : Bounded step stop) (a : Atom ι) {i j : Nat}
    (h : a.Ends step i j) : i ≤ j ∧ (i ≤ stop → j ≤ stop) := by
  cases a with
  | leaf x => exact ⟨(hstep x i j h).1, fun _ => (hstep x i j h).2⟩
  | group alts => exact Alts.ends_bound hstep alts h

theorem Seq.ends_bound (hstep : Bounded step stop) (s : Seq ι) {i j : Nat}
    (h : s.Ends step i j) : i ≤ j ∧ (i ≤ stop → j ≤ stop) := by
  cases s with
  | nil =>
    obtain rfl : i = j := h
    exact ⟨Nat.le_refl i, id⟩
  | cons a r s =>
    obtain ⟨m, hm, he⟩ := h
    have hfirst := Rep.ends_bound (fun _ _ => Atom.ends_bound hstep a) hm
    have hrest := Seq.ends_bound hstep s he
    exact ⟨Nat.le_trans hfirst.1 hrest.1, fun hi => hrest.2 (hfirst.2 hi)⟩

theorem Alts.ends_bound (hstep : Bounded step stop) (alts : Alts ι) {i j : Nat}
    (h : alts.Ends step i j) : i ≤ j ∧ (i ≤ stop → j ≤ stop) := by
  cases alts with
  | last s => exact Seq.ends_bound hstep s h
  | or s alts =>
    rcases h with h | h
    · exact Seq.ends_bound hstep s h
    · exact Alts.ends_bound hstep alts h

end

theorem Atom.once_bound (hstep : Bounded step stop) (a : Atom ι) {i j : Nat}
    (h : a.once step stop i = some j) : i ≤ j ∧ j ≤ stop := by
  cases a with
  | leaf x => exact hstep x i j h
  | group alts =>
    rw [Atom.once_group] at h
    split at h
    · cases h
    · next hi =>
      have := Alts.ends_bound hstep alts (Alts.first_sound alts h)
      exact ⟨this.1, this.2 (by omega)⟩

mutual

theorem Atom.once_complete (hstep : Bounded step stop) (a : Atom ι) {S : Nat → Prop}
    (hs : a.Settled step stop S) {i j : Nat} (hi : S i) (h : a.Ends step i j) :
    a.once step stop i = some j := by
  cases a with
  | leaf x => exact h
  | group alts =>
    obtain ⟨hinside, hunique, hsettled⟩ := hs
    have hlt := hinside i j hi h
    obtain ⟨j', hj'⟩ := Alts.first_isSome hstep alts hsettled i j ⟨hi, hlt⟩ h
    rw [Atom.once_group, if_neg (by omega), hj', hunique i j' j hi (Alts.first_sound alts hj') h]

/-- **The matcher finds an end if there is one.** -/
theorem Seq.first_isSome (hstep : Bounded step stop) (s : Seq ι) {S : Nat → Prop}
    (hs : s.Settled step stop S) : Complete S (s.first step stop) (s.Ends step) := by
  cases s with
  | nil => exact fun i _ _ _ => ⟨i, rfl⟩
  | cons a r s =>
    intro i e hi ⟨m, hm, he⟩
    exact Rep.run_complete (fun _ _ => Atom.once_complete hstep a hs.1)
      (fun _ _ => Atom.once_bound hstep a) (Nat.lt_succ_self stop)
      (Seq.first_isSome hstep s hs.2) hi hm he

theorem Alts.first_isSome (hstep : Bounded step stop) (alts : Alts ι) {S : Nat → Prop}
    (hs : alts.Settled step stop S) : Complete S (alts.first step stop) (alts.Ends step) := by
  cases alts with
  | last s => exact Seq.first_isSome hstep s hs
  | or s alts =>
    intro i e hi he
    cases hfirst : s.first step stop i with
    | some e' => exact ⟨e', by rw [Alts.first, hfirst]; rfl⟩
    | none =>
      rcases he with he | he
      · obtain ⟨e', he'⟩ := Seq.first_isSome hstep s hs.1 i e hi he
        rw [hfirst] at he'
        cases he'
      · obtain ⟨e', he'⟩ := Alts.first_isSome hstep alts hs.2 i e hi he
        exact ⟨e', by rw [Alts.first, hfirst]; exact he'⟩

end

/-! ## Other leaves -/

/-- Repetitions of an atom that reads alike where it is tried. -/
theorem Rep.ends_congr {r : Rep} {R R' : Nat → Nat → Prop} {S : Nat → Prop}
    (h : ∀ i j, r.Tried R S i → R' i j → R i j) {i j : Nat} (hi : S i) (hends : r.Ends R' i j) :
    r.Ends R i j := by
  have hstar : (∀ i j, Rep.star.Tried R S i → R' i j → R i j) → ∀ {j}, ReflTransGen R' i j →
      ReflTransGen R i j := by
    intro h j hj
    induction hj with
    | refl => exact .refl
    | tail _ hk ih => exact ih.tail (h _ _ ⟨i, hi, ih⟩ hk)
  cases r with
  | one => exact h i j hi hends
  | star => exact hstar h hends
  | plus =>
    obtain ⟨k, hk, hkj⟩ := TransGen.tail'_iff.mp hends
    have hreach := hstar h hk
    exact TransGen.tail' hreach (h k j ⟨i, hi, hreach⟩ hkj)
  | opt =>
    rcases hends with _ | hends
    · exact .refl
    · exact .single (h i j hi hends)

section
variable {step' : ι → Nat → Option Nat} {P : ι → Nat → Prop}

mutual

theorem Atom.ends_of_visits (hP : ∀ x i, P x i → step' x i = step x i) (a : Atom ι)
    {S : Nat → Prop} (hv : a.Visits step P S) {i j : Nat} (hi : S i) (h : a.Ends step' i j) :
    a.Ends step i j := by
  cases a with
  | leaf x => exact (hP x i (hv i hi)).symm.trans h
  | group alts => exact Alts.ends_of_visits hP alts hv hi h

/-- **What other leaves read is read by these**, if they read alike wherever they can be reached. -/
theorem Seq.ends_of_visits (hP : ∀ x i, P x i → step' x i = step x i) (s : Seq ι)
    {S : Nat → Prop} (hv : s.Visits step P S) {i j : Nat} (hi : S i) (h : s.Ends step' i j) :
    s.Ends step i j := by
  cases s with
  | nil => exact h
  | cons a r s =>
    obtain ⟨m, hm, he⟩ := h
    have hm' := Rep.ends_congr (fun _ _ => Atom.ends_of_visits hP a hv.1) hi hm
    exact ⟨m, hm', Seq.ends_of_visits hP s hv.2 ⟨i, hi, hm'⟩ he⟩

theorem Alts.ends_of_visits (hP : ∀ x i, P x i → step' x i = step x i) (alts : Alts ι)
    {S : Nat → Prop} (hv : alts.Visits step P S) {i j : Nat} (hi : S i)
    (h : alts.Ends step' i j) : alts.Ends step i j := by
  cases alts with
  | last s => exact Seq.ends_of_visits hP s hv hi h
  | or s alts =>
    rcases h with h | h
    · exact .inl (Seq.ends_of_visits hP s hv.1 hi h)
    · exact .inr (Alts.ends_of_visits hP alts hv.2 hi h)

end

theorem chain_congr {once once' : Nat → Option Nat} {R : Nat → Nat → Prop}
    (hsound : ∀ i j, once i = some j → R i j) (rounds : Nat) {i : Nat}
    (h : ∀ j, ReflTransGen R i j → once' j = once j) :
    chain once' rounds i = chain once rounds i := by
  induction rounds generalizing i with
  | zero => rfl
  | succ rounds ih =>
    rw [chain_succ, chain_succ, h i .refl]
    cases hj : once i with
    | none => rfl
    | some j =>
      dsimp only
      rw [ih fun k hk => h k (hk.head (hsound i j hj))]

/-- The first success from the longest on, with what follows agreeing until there is one. -/
theorem findSome_passed {rest rest' : Nat → Option Nat} {ps : List Nat}
    (hps : ps.Pairwise (· < ·))
    (h : ∀ m ∈ ps, (∀ m' ∈ ps, m < m' → rest m' = none) → rest' m = rest m) :
    ps.reverse.findSome? rest' = ps.reverse.findSome? rest := by
  have hsorted := List.pairwise_reverse.mpr hps
  have hall : ∀ qs : List Nat, qs.Pairwise (fun a b => b < a) →
      (∀ m ∈ qs, (∀ m' ∈ qs, m < m' → rest m' = none) → rest' m = rest m) →
      qs.findSome? rest' = qs.findSome? rest := by
    intro qs hqs hagree
    induction qs with
    | nil => rfl
    | cons q qs ih =>
      obtain ⟨hlt, hqs⟩ := List.pairwise_cons.mp hqs
      have hq := hagree q List.mem_cons_self fun m' hm' hlater => by
        rcases List.mem_cons.mp hm' with rfl | hm'
        · exact absurd hlater (Nat.lt_irrefl _)
        · exact absurd (hlt m' hm') (Nat.lt_asymm hlater)
      rw [List.findSome?_cons, List.findSome?_cons, hq]
      cases hfirst : rest q with
      | some e => rfl
      | none =>
        refine ih hqs fun m hm hnone => hagree m (List.mem_cons_of_mem _ hm) fun m' hm' hlater => ?_
        rcases List.mem_cons.mp hm' with rfl | hm'
        · exact hfirst
        · exact hnone m' hm' hlater
  exact hall _ hsorted fun m hm hnone => h m (List.mem_reverse.mp hm) fun m' hm' hlater =>
    hnone m' (List.mem_reverse.mpr hm') hlater

theorem Rep.opt_run_congr {once once' rest rest' : Nat → Option Nat} {rounds i : Nat}
    (hsame : once' i = once i) (hnext : ∀ m, once i = some m → rest' m = rest m)
    (hself : rest' i = rest i ∨ ∃ m e, once i = some m ∧ rest m = some e) :
    Rep.opt.run rounds once' rest' i = Rep.opt.run rounds once rest i := by
  rw [Rep.run, Rep.run, hsame]
  cases hm : once i with
  | none =>
    rcases hself with hself | ⟨m, e, hm', -⟩
    · rw [Option.bind_none, Option.bind_none, hself]
    · rw [hm] at hm'
      cases hm'
  | some m =>
    rw [Option.bind_some, Option.bind_some, hnext m hm]
    rcases hself with hself | ⟨m', e, hm', he⟩
    · rw [hself]
    · rw [hm, Option.some.injEq] at hm'
      rw [hm', he]
      rfl

/-- **Repetitions run alike** where the atom and what follows it do as far as they are tried. -/
theorem Rep.run_congr {r : Rep} {once once' rest rest' : Nat → Option Nat}
    {R E : Nat → Nat → Prop} {T : Nat → Prop} {rounds : Nat}
    (hsound : ∀ i j, once i = some j → R i j)
    (honce : ∀ i j, r.Tried R T i → R i j → once i = some j)
    (hstop : ∀ i j, once i = some j → i ≤ j ∧ j ≤ stop) (hrounds : stop < rounds)
    (hsame : ∀ i, r.Tried R T i → once' i = once i)
    (hrest : Complete (Reached (r.Ends R) T) rest E)
    (hpassed : ∀ m, r.Passed R E T m → rest' m = rest m) {i : Nat} (hi : T i) :
    r.run rounds once' rest' i = r.run rounds once rest i := by
  have hnone : ∀ {m e}, r.Ends R i m → rest m = none → ¬ E m e := by
    intro m e hm hrm he
    obtain ⟨e', he'⟩ := hrest m e ⟨i, hi, hm⟩ he
    rw [hrm] at he'
    cases he'
  have hchain : ∀ {k}, (∀ i j, Rep.star.Tried R T i → R i j → once i = some j) →
      (∀ i, Rep.star.Tried R T i → once' i = once i) → ReflTransGen R i k →
      (∀ m, ReflTransGen R k m → r.Ends R i m) →
      (∀ m, r.Ends R i m → ReflTransGen R k m) →
      (chain once' rounds k).reverse.findSome? rest' =
        (chain once rounds k).reverse.findSome? rest := by
    intro k honce hsame hik hends hends'
    rw [chain_congr hsound rounds fun j hj => hsame j ⟨i, hi, hik.trans hj⟩]
    refine findSome_passed (chain_increasing (fun i j h => (hstop i j h).1) rounds k).1
      fun m hm hlater => hpassed m ⟨i, hi, hends m (chain_sound hsound hm), ?_⟩
    intro m' e hlt hm'
    refine hnone hm' (hlater m' ?_ hlt)
    exact chain_tried honce hstop hrounds hi hik (hends' m' hm')
  cases r with
  | one =>
    rw [Rep.run, Rep.run, hsame i hi]
    cases hm : once i with
    | none => rfl
    | some m =>
      refine hpassed m ⟨i, hi, hsound i m hm, fun m' e hlt hm' => ?_⟩
      have hsome := honce i m' hi hm'
      rw [hm, Option.some.injEq] at hsome
      omega
  | star => exact hchain honce hsame .refl (fun m hm => hm) fun m hm => hm
  | plus =>
    rw [Rep.run, Rep.run, hsame i ⟨i, hi, .refl⟩]
    cases hk : once i with
    | none => rfl
    | some k =>
      refine hchain honce hsame (.single (hsound i k hk))
        (fun m hm => TransGen.head' (hsound i k hk) hm) fun m hm => ?_
      obtain ⟨k', hk', hm⟩ := TransGen.head'_iff.mp hm
      have hsome := honce i k' ⟨i, hi, .refl⟩ hk'
      rw [hk, Option.some.injEq] at hsome
      rwa [hsome]
  | opt =>
    have hself : rest' i = rest i ∨ ∃ m e, once i = some m ∧ rest m = some e := by
      by_cases hsome : ∃ m e, once i = some m ∧ rest m = some e
      · exact .inr hsome
      · refine .inl (hpassed i ⟨i, hi, .refl, fun m' e hlt hm' he => ?_⟩)
        rcases hm' with _ | hm'
        · exact Nat.lt_irrefl _ hlt
        · cases hrm : rest m' with
          | none => exact hnone (.single hm') hrm he
          | some e' => exact hsome ⟨m', e', honce i m' hi hm', hrm⟩
    refine Rep.opt_run_congr (hsame i hi) (fun m hm => ?_) hself
    refine hpassed m ⟨i, hi, .single (hsound i m hm), fun m' e hlt hm' => ?_⟩
    rcases hm' with _ | hm'
    · have := (hstop i m hm).1
      omega
    · have hsome := honce i m' hi hm'
      rw [hm, Option.some.injEq] at hsome
      omega

mutual

theorem Atom.once_congr (hstep : Bounded step stop) (hP : ∀ x i, P x i → step' x i = step x i)
    (a : Atom ι) {S T : Nat → Prop} (hTS : ∀ i, T i → S i) (hs : a.Settled step stop S)
    (ht : a.Tries step stop P T) {i : Nat} (hi : T i) :
    a.once step' stop i = a.once step stop i := by
  cases a with
  | leaf x => exact hP x i (ht i hi)
  | group alts =>
    rw [Atom.once_group, Atom.once_group]
    split
    · rfl
    · next hlt =>
      exact Alts.first_congr hstep hP alts (fun i hi => ⟨hTS i hi.1, hi.2⟩) hs.2.2 ht
        ⟨hi, Nat.lt_of_not_le hlt⟩

/-- **The matcher finds the same with other leaves**, if they read alike where they are tried. -/
theorem Seq.first_congr (hstep : Bounded step stop) (hP : ∀ x i, P x i → step' x i = step x i)
    (s : Seq ι) {S T : Nat → Prop} (hTS : ∀ i, T i → S i) (hs : s.Settled step stop S)
    (ht : s.Tries step stop P T) {i : Nat} (hi : T i) :
    s.first step' stop i = s.first step stop i := by
  cases s with
  | nil => rfl
  | cons a r s =>
    have hstar : ∀ j, Rep.star.Tried (a.Ends step) T j → Rep.star.Tried (a.Ends step) S j := by
      rintro j ⟨k, hk, hj⟩
      exact ⟨k, hTS k hk, hj⟩
    have htried : ∀ j, r.Tried (a.Ends step) T j → r.Tried (a.Ends step) S j := by
      cases r with
      | one => exact hTS
      | opt => exact hTS
      | star => exact hstar
      | plus => exact hstar
    have hreached : ∀ m, Reached (r.Ends (a.Ends step)) T m →
        Reached (r.Ends (a.Ends step)) S m := by
      rintro m ⟨k, hk, hm⟩
      exact ⟨k, hTS k hk, hm⟩
    have hpassed : ∀ m, r.Passed (a.Ends step) (s.Ends step) T m →
        Reached (r.Ends (a.Ends step)) S m := by
      rintro m ⟨k, hk, hm, -⟩
      exact ⟨k, hTS k hk, hm⟩
    have hcomplete := Seq.first_isSome hstep s hs.2
    exact Rep.run_congr (fun _ _ => Atom.once_sound a)
      (fun i j hi => Atom.once_complete hstep a hs.1 (htried i hi))
      (fun _ _ => Atom.once_bound hstep a) (Nat.lt_succ_self stop)
      (fun i hi => Atom.once_congr hstep hP a htried hs.1 ht.1 hi)
      (fun m e hm => hcomplete m e (hreached m hm))
      (fun m hm => Seq.first_congr hstep hP s hpassed hs.2 ht.2 hm) hi

theorem Alts.first_congr (hstep : Bounded step stop) (hP : ∀ x i, P x i → step' x i = step x i)
    (alts : Alts ι) {S T : Nat → Prop} (hTS : ∀ i, T i → S i) (hs : alts.Settled step stop S)
    (ht : alts.Tries step stop P T) {i : Nat} (hi : T i) :
    alts.first step' stop i = alts.first step stop i := by
  cases alts with
  | last s => exact Seq.first_congr hstep hP s hTS hs ht hi
  | or s alts =>
    rw [Alts.first, Alts.first, Seq.first_congr hstep hP s hTS hs.1 ht.1 hi]
    cases hfirst : s.first step stop i with
    | some e => rfl
    | none =>
      refine Alts.first_congr hstep hP alts (fun i hi => hTS i hi.1) hs.2 ht.2 ⟨hi, fun j hj => ?_⟩
      obtain ⟨e, he⟩ := Seq.first_isSome hstep s hs.1 i j (hTS i hi) hj
      rw [hfirst] at he
      cases he

end

end

/-! ## Sequences that do not cross -/

/-- Atoms that read at most one position do not cross. -/
theorem Rep.uncrossed_of_width {R : Nat → Nat → Prop} (r : Rep) (S : Nat → Prop)
    (hR : ∀ i j, R i j → i ≤ j ∧ j ≤ i + 1) : Uncrossed S (r.Ends R) := by
  -- a repetition passes every position on its way
  have hpass : ∀ {i j k}, ReflTransGen R i j → i ≤ k → k ≤ j → ReflTransGen R k j := by
    intro i j k h
    induction h with
    | refl =>
      intro hik hki
      rw [Nat.le_antisymm hki hik]
    | @tail j l _ hl ih =>
      intro hik hkl
      rcases Nat.lt_or_ge j k with hjk | hkj
      · rw [show k = l by have := hR j l hl; omega]
      · exact (ih hik hkj).tail hl
  have hbound : ∀ {i j}, ReflTransGen R i j → i ≤ j := by
    intro i j h
    induction h with
    | refl => exact Nat.le_refl i
    | tail _ hl ih => exact Nat.le_trans ih (hR _ _ hl).1
  intro i i' j j' _ _ hlt h h' hj
  cases r with
  | one =>
    have := hR i j h
    have := hR i' j' h'
    omega
  | star => exact hpass h (by omega) (by have := hbound h'; omega)
  | plus =>
    have hle := hbound h'.to_reflTransGen
    have hreach := hpass h.to_reflTransGen (k := i') (by omega) (by omega)
    rcases Relation.reflTransGen_iff_eq_or_transGen.mp hreach with heq | hplus
    · omega
    · exact hplus
  | opt =>
    have hle := hbound h'.to_reflTransGen
    rcases h with _ | h
    · omega
    · have := hR i j h
      omega

theorem Seq.uncrossed (hstep : Bounded step stop)
    (hwidth : ∀ x i j, step x i = some j → j ≤ i + 1) (s : Seq ι) {S : Nat → Prop}
    (hs : s.Straight step S) : Uncrossed S (s.Ends step) := by
  cases s with
  | nil =>
    intro i i' j j' _ _ hlt h h' hj
    obtain rfl : i = j := h
    obtain rfl : i' = j' := h'
    omega
  | cons a r s =>
    have hatom : Uncrossed S (r.Ends (a.Ends step)) := by
      cases a with
      | leaf x => exact Rep.uncrossed_of_width r S fun i j h => ⟨(hstep x i j h).1, hwidth x i j h⟩
      | group alts => exact hs.1
    have hrest := Seq.uncrossed hstep hwidth s hs.2
    rintro i i' e e' hi hi' hlt ⟨m, hm, he⟩ ⟨m', hm', he'⟩ hee
    rcases Nat.lt_trichotomy m m' with h | rfl | h
    · exact ⟨m', hm', hrest m m' e e' ⟨i, hi, hm⟩ ⟨i', hi', hm'⟩ h he he' hee⟩
    · exact ⟨m, hm', he⟩
    · exact ⟨m, hatom i i' m m' hi hi' hlt hm hm' h, he⟩

/-- **The matcher finds the last end** of a sequence that is settled and straight. -/
theorem Seq.first_longest (hstep : Bounded step stop)
    (hwidth : ∀ x i j, step x i = some j → j ≤ i + 1) (s : Seq ι) {S : Nat → Prop}
    (hs : s.Settled step stop S) (hstraight : s.Straight step S) :
    Longest S (s.first step stop) (s.Ends step) := by
  cases s with
  | nil =>
    intro i e e' _ h h'
    obtain rfl : i = e := Option.some.inj h
    obtain rfl : i = e' := h'
    exact Nat.le_refl i
  | cons a r s =>
    rintro i e e' hi h ⟨m, hm, he'⟩
    exact Rep.run_longest (fun _ _ => Atom.once_sound a)
      (fun _ _ => Atom.once_complete hstep a hs.1) (fun _ _ => Atom.once_bound hstep a)
      (Nat.lt_succ_self stop) (fun _ _ => Seq.first_sound s)
      (Seq.first_isSome hstep s hs.2) (Seq.first_longest hstep hwidth s hs.2 hstraight.2)
      (Seq.uncrossed hstep hwidth s hstraight.2) hi h hm he'

/-- The matcher loses nothing on the way from `S`, and stops at the last end, or at the only one. -/
def Seq.Direct (step : ι → Nat → Option Nat) (stop : Nat) (s : Seq ι) (S : Nat → Prop) : Prop :=
  s.Settled step stop S ∧ (s.Straight step S ∨
    ∀ i j j', S i → s.Ends step i j → s.Ends step i j' → j = j')

/-- **The matcher decides whether a sequence that is direct ends at the end of the text.** -/
theorem Seq.first_stop (hstep : Bounded step stop)
    (hwidth : ∀ x i j, step x i = some j → j ≤ i + 1) (s : Seq ι) {S : Nat → Prop}
    (hs : s.Direct step stop S) {i : Nat} (hi : S i) (hle : i ≤ stop) :
    s.first step stop i = some stop ↔ s.Ends step i stop := by
  refine ⟨Seq.first_sound s, fun h => ?_⟩
  obtain ⟨e, he⟩ := Seq.first_isSome hstep s hs.1 i stop hi h
  have hends := Seq.first_sound s he
  have hbound := (Seq.ends_bound hstep s hends).2 hle
  rcases hs.2 with hstraight | hone
  · have := Seq.first_longest hstep hwidth s hs.1 hstraight i e stop hi he h
    rw [he, show e = stop by omega]
  · rw [he, hone i e stop hi hends h]

end

end Lib.Backtrack
