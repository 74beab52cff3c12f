import Orbit.Stdlib.Proof.Regex

/-!
# The runs of the matcher

`matchSeq` answers alike where a text does not match, where a pattern cannot be read and where the fuel
is out. `checkedSeq` tells them apart: its outer `none` is a matcher that is stuck. On the branches of
a pattern that the validator accepts it never is (`checkedSeq_branch`), with no more calls in one
another than the pattern has characters, and one.
-/

namespace Regex

open Lib.Backtrack (Rep Atom Seq Alts chain chain_succ)

/-! ## The matcher with its stuck cases -/

/-- Each backslash of a class has a character behind it. -/
def classInside : (skip : Nat) → Text → Bool
  | skip, [] => skip = 0
  | skip + 1, _ :: u => classInside skip u
  | 0, c :: u => classInside (if c = '\\' then 1 else 0) u

/-- The atom is whole: nothing that it is made of is looked for past its end. -/
def atomInside (atom : Text) : Bool :=
  match atom with
  | [] => false
  | c :: t =>
    if c = '\\' then t.length = 1
    else if c = '[' then t ≠ [] && classInside 0 (t.take (t.length - 1))
    else if c = '(' then findClose atom = some t.length
    else t = []

/-- The loop of `matchStar`, which ends by itself. -/
def checkedChain (once : Nat → Option (Option Nat)) : (rounds : Nat) → Nat → Option (List Nat)
  | 0, _ => none
  | rounds + 1, i =>
    match once i with
    | none => none
    | some none => some [i]
    | some (some j) => if j = i then some [i] else (checkedChain once rounds j).map (i :: ·)

/-- The first that succeeds. -/
def checkedFirst {α : Type} (f : α → Option (Option Nat)) : List α → Option (Option Nat)
  | [] => some none
  | x :: xs =>
    match f x with
    | none => none
    | some (some e) => some (some e)
    | some none => checkedFirst f xs

mutual

def checkedSeq : (fuel : Nat) → (br text : Text) → (ti : Nat) → Option (Option Nat)
  | 0, _, _, _ => none
  | fuel + 1, br, text, ti =>
    if br = [] then some (some ti)
    else
      match parseAtomEnd br with
      | none => none
      | some qi =>
        if qi = 0 ∨ br.length < qi then none
        else
          let atom := br.take qi
          let rest := behind qi br
          match repOf ((br.drop qi).headD nul) with
          | .star => checkedStar fuel atom rest text ti
          | .plus => (checkedAtomOnce fuel atom text ti).bind fun
            | none => some none
            | some m => checkedStar fuel atom rest text m
          | .opt => (checkedAtomOnce fuel atom text ti).bind fun
            | none => checkedSeq fuel rest text ti
            | some m => (checkedSeq fuel rest text m).bind fun
              | none => checkedSeq fuel rest text ti
              | some e => some (some e)
          | .one => (checkedAtomOnce fuel atom text ti).bind fun
            | none => some none
            | some m => checkedSeq fuel rest text m

def checkedStar : (fuel : Nat) → (atom rest text : Text) → (ti : Nat) → Option (Option Nat)
  | 0, _, _, _, _ => none
  | fuel + 1, atom, rest, text, ti =>
    (checkedChain (fun cur => checkedAtomOnce fuel atom text cur) (text.length + 1) ti).bind
      fun positions => checkedFirst (fun m => checkedSeq fuel rest text m) positions.reverse

def checkedAtomOnce : (fuel : Nat) → (atom text : Text) → (ti : Nat) → Option (Option Nat)
  | 0, _, _, _ => none
  | fuel + 1, atom, text, ti =>
    if atomInside atom = false then none
    else if atom.headD nul = '(' then
      if ti ≥ text.length then some none
      else checkedFirst (fun b => checkedSeq fuel b text ti)
        (splitTop ((atom.take (atom.length - 1)).drop 1))
    else some (matchAtomOnce (fuel + 1) atom text ti)

end

theorem checkedAtomOnce_succ (fuel : Nat) (atom text : Text) (ti : Nat) :
    checkedAtomOnce (fuel + 1) atom text ti =
      if atomInside atom = false then none
      else if atom.headD nul = '(' then
        if ti ≥ text.length then some none
        else checkedFirst (fun b => checkedSeq fuel b text ti)
          (splitTop ((atom.take (atom.length - 1)).drop 1))
      else some (matchAtomOnce (fuel + 1) atom text ti) := rfl

theorem checkedStar_succ (fuel : Nat) (atom rest text : Text) (ti : Nat) :
    checkedStar (fuel + 1) atom rest text ti =
      (checkedChain (fun cur => checkedAtomOnce fuel atom text cur) (text.length + 1) ti).bind
        fun positions => checkedFirst (fun m => checkedSeq fuel rest text m) positions.reverse := rfl

/-! ## Where the matcher gets to -/

variable {text : Text}

theorem chain_bounded {once : Nat → Option Nat} {stop : Nat}
    (honce : ∀ i j, i ≤ stop → once i = some j → i ≤ j ∧ j ≤ stop) (rounds : Nat) {i : Nat}
    (hi : i ≤ stop) : ∀ m ∈ chain once rounds i, i ≤ m ∧ m ≤ stop := by
  induction rounds generalizing i with
  | zero =>
    intro m hm
    rw [List.mem_singleton.mp hm]
    exact ⟨Nat.le_refl _, hi⟩
  | succ rounds ih =>
    have hone : ∀ m ∈ [i], i ≤ m ∧ m ≤ stop := by
      intro m hm
      rw [List.mem_singleton.mp hm]
      exact ⟨Nat.le_refl _, hi⟩
    rw [chain_succ]
    cases hj : once i with
    | none => exact hone
    | some j =>
      obtain ⟨hij, hjs⟩ := honce i j hi hj
      dsimp only
      split
      · exact hone
      · intro m hm
        rcases List.mem_cons.mp hm with rfl | hm
        · exact ⟨Nat.le_refl _, hi⟩
        · obtain ⟨hjm, hms⟩ := ih hjs m hm
          exact ⟨Nat.le_trans hij hjm, hms⟩

/-- The matcher goes forwards, and not past the end. -/
structure Forward (text : Text) (fuel : Nat) : Prop where
  seq : ∀ br ti e, ti ≤ text.length → matchSeq fuel br text ti = some e →
    ti ≤ e ∧ e ≤ text.length
  star : ∀ atom rest ti e, ti ≤ text.length → matchStar fuel atom rest text ti = some e →
    ti ≤ e ∧ e ≤ text.length
  once : ∀ atom ti e, ti ≤ text.length → matchAtomOnce fuel atom text ti = some e →
    ti ≤ e ∧ e ≤ text.length

theorem matchClass_cases {atom : Text} {ti e : Nat} (h : matchClass atom text ti = some e) :
    e = ti + 1 := by
  unfold matchClass at h
  exact (Option.some.inj (Option.ite_none_left_eq_some.mp h).2).symm

theorem forward_seq {fuel : Nat} (ih : Forward text fuel) {br : Text} {ti e : Nat}
    (hti : ti ≤ text.length) (h : matchSeq (fuel + 1) br text ti = some e) :
    ti ≤ e ∧ e ≤ text.length := by
  rw [matchSeq] at h
  split at h
  · rw [← Option.some.inj h]
    exact ⟨Nat.le_refl _, hti⟩
  · cases hparse : parseAtomEnd br with
    | none =>
      rw [hparse] at h
      cases h
    | some qi =>
      rw [hparse] at h
      dsimp only at h
      have hthen {next : Nat → Option Nat}
          (hnext : ∀ m, m ≤ text.length → next m = some e → m ≤ e ∧ e ≤ text.length)
          (hbind : (matchAtomOnce fuel (br.take qi) text ti).bind next = some e) :
          ti ≤ e ∧ e ≤ text.length := by
        obtain ⟨m, hm, he⟩ := Option.bind_eq_some_iff.mp hbind
        obtain ⟨htm, hmt⟩ := ih.once _ _ _ hti hm
        obtain ⟨hme, het⟩ := hnext m hmt he
        exact ⟨Nat.le_trans htm hme, het⟩
      cases hrep : repOf ((br.drop qi).headD nul) with
      | star =>
        rw [hrep] at h
        exact ih.star _ _ _ _ hti h
      | plus =>
        rw [hrep] at h
        exact hthen (fun m hm => ih.star _ _ m e hm) h
      | opt =>
        rw [hrep] at h
        rcases Option.or_eq_some_iff.mp h with h | ⟨-, h⟩
        · exact hthen (fun m hm => ih.seq _ m e hm) h
        · exact ih.seq _ _ _ hti h
      | one =>
        rw [hrep] at h
        exact hthen (fun m hm => ih.seq _ m e hm) h

theorem forward_once {fuel : Nat} (ih : Forward text fuel) {atom : Text} {ti e : Nat}
    (hti : ti ≤ text.length) (h : matchAtomOnce (fuel + 1) atom text ti = some e) :
    ti ≤ e ∧ e ≤ text.length := by
  have hself (h : some ti = some e) : ti ≤ e ∧ e ≤ text.length := by
    rw [← Option.some.inj h]
    exact ⟨Nat.le_refl _, hti⟩
  have hnext (hlt : ¬ ti ≥ text.length) (h : e = ti + 1) : ti ≤ e ∧ e ≤ text.length := by
    omega
  rw [matchAtomOnce] at h
  split at h
  · split at h
    · exact hself h
    · cases h
  split at h
  · split at h
    · exact hself h
    · cases h
  split at h
  · cases h
  next hlt =>
  split at h
  · split at h
    · cases h
    · exact hnext hlt (Option.some.inj h).symm
  split at h
  · split at h
    · exact hnext hlt (Option.some.inj h).symm
    · cases h
  split at h
  · exact hnext hlt (matchClass_cases h)
  split at h
  · cases hclose : findClose atom with
    | none =>
      rw [hclose] at h
      cases h
    | some close =>
      rw [hclose] at h
      obtain ⟨b, -, hb⟩ := List.exists_of_findSome?_eq_some h
      exact ih.seq _ _ _ hti hb
  split at h
  · exact hnext hlt (Option.some.inj h).symm
  · cases h

theorem forward (text : Text) (fuel : Nat) : Forward text fuel := by
  induction fuel with
  | zero =>
    exact ⟨fun _ _ _ _ h => absurd h nofun, fun _ _ _ _ _ h => absurd h nofun,
      fun _ _ _ _ h => absurd h nofun⟩
  | succ fuel ih =>
    refine ⟨fun br ti e hti h => forward_seq ih hti h, fun atom rest ti e hti h => ?_,
      fun atom ti e hti h => forward_once ih hti h⟩
    rw [matchStar] at h
    obtain ⟨m, hm, he⟩ := List.exists_of_findSome?_eq_some h
    obtain ⟨htm, hmt⟩ := chain_bounded (fun i j hi hj => ih.once atom i j hi hj) _ hti m
      (List.mem_reverse.mp hm)
    obtain ⟨hme, het⟩ := ih.seq _ _ _ hmt he
    exact ⟨Nat.le_trans htm hme, het⟩

/-! ## Never stuck -/

theorem checkedFirst_eq {α : Type} {f : α → Option (Option Nat)} {g : α → Option Nat} {l : List α}
    (h : ∀ x ∈ l, f x = some (g x)) : checkedFirst f l = some (l.findSome? g) := by
  induction l with
  | nil => rfl
  | cons x l ih =>
    rw [checkedFirst, h x List.mem_cons_self, List.findSome?_cons,
      ih fun y hy => h y (List.mem_cons_of_mem _ hy)]
    cases g x <;> rfl

/-- The loop ends at the end of the text at the latest. -/
theorem checkedChain_eq {once' : Nat → Option (Option Nat)} {once : Nat → Option Nat} {stop : Nat}
    (heq : ∀ i, i ≤ stop → once' i = some (once i))
    (honce : ∀ i j, i ≤ stop → once i = some j → i ≤ j ∧ j ≤ stop) {rounds i : Nat} (hi : i ≤ stop)
    (hrounds : stop < rounds + i) : checkedChain once' rounds i = some (chain once rounds i) := by
  induction rounds generalizing i with
  | zero => omega
  | succ rounds ih =>
    rw [checkedChain, heq i hi, chain_succ]
    cases hj : once i with
    | none => rfl
    | some j =>
      obtain ⟨hij, hjs⟩ := honce i j hi hj
      dsimp only
      split
      · rfl
      · rw [ih hjs (by omega)]
        rfl

theorem classInside_items {plain : Option Char} {items : List ClassItem} (h : Items plain items) :
    classInside 0 (renderItems items) = true := by
  induction items generalizing plain with
  | nil => rfl
  | cons item items ih =>
    cases item with
    | char c =>
      exact (congrArg (fun n => classInside n (renderItems items)) (if_neg h.2.1)).trans (ih h.2.2.2)
    | upTo lo hi =>
      exact (congrArg (fun n => classInside n (renderItems items)) (if_neg h.2.2.1)).trans
        (ih h.2.2.2.2)
    | esc e => exact ih h.2

theorem atomInside_leaf {l : Leaf} (h : l.WF) :
    atomInside l.render = true ∧ l.render.headD nul ≠ '(' := by
  cases l with
  | char c =>
    obtain ⟨h1, -, -, -, -, -, -, -, -, h10, h11⟩ := isSpecial_eq_false h
    refine ⟨?_, h11⟩
    unfold Leaf.render atomInside
    dsimp only
    rw [if_neg h1, if_neg h10, if_neg h11]
    rfl
  | esc e => exact ⟨rfl, show '\\' ≠ '(' by decide⟩
  | any => exact ⟨rfl, by decide⟩
  | bol => exact ⟨rfl, by decide⟩
  | eol => exact ⟨rfl, by decide⟩
  | cls neg items =>
    refine ⟨?_, show '[' ≠ '(' by decide⟩
    have hinside : classInside 0 ((if neg then ['^'] else []) ++ renderItems items) = true := by
      cases neg with
      | true => exact classInside_items h.2.2
      | false => exact classInside_items h.2.2
    unfold Leaf.render atomInside
    dsimp only
    rw [if_neg (by decide), if_pos rfl, List.length_append, List.length_singleton,
      Nat.add_sub_cancel, List.take_left, hinside, Bool.and_true]
    exact decide_eq_true (List.append_ne_nil_of_right_ne_nil _ (List.cons_ne_nil _ _))

theorem atomInside_group {alts : Pattern} (h : AltsWF alts) :
    atomInside (renderAtom (.group alts)) = true := by
  have hclose := findClose_group alts h []
  rw [renderAtom]
  unfold atomInside
  dsimp only
  rw [if_neg (by decide), if_neg (by decide), if_pos rfl, hclose, List.length_append]
  exact decide_eq_true rfl

theorem branches_wf (alts : Pattern) (h : AltsWF alts) :
    ∀ s ∈ Branches alts, SeqWF s ∧ (renderSeq s).length ≤ (renderAlts alts).length := by
  cases alts with
  | last s =>
    intro s' hs'
    rw [List.mem_singleton.mp hs']
    exact ⟨h.2, Nat.le_refl _⟩
  | or s alts =>
    intro s' hs'
    rw [renderAlts, List.length_append, List.length_cons]
    rcases List.mem_cons.mp hs' with rfl | hs'
    · exact ⟨h.2.1, by omega⟩
    · obtain ⟨hwf, hlen⟩ := branches_wf alts h.2.2 s' hs'
      exact ⟨hwf, by omega⟩

/-- The matcher on the texts of trees is not stuck, with enough fuel. -/
structure Checked (text : Text) (fuel : Nat) : Prop where
  seq : ∀ s, SeqWF s → (renderSeq s).length < fuel → ∀ ti, ti ≤ text.length →
    checkedSeq fuel (renderSeq s) text ti = some (matchSeq fuel (renderSeq s) text ti)
  star : ∀ a s, AtomWF a → SeqWF s → (renderAtom a).length + (renderSeq s).length < fuel →
    ∀ ti, ti ≤ text.length → checkedStar fuel (renderAtom a) (renderSeq s) text ti =
      some (matchStar fuel (renderAtom a) (renderSeq s) text ti)
  once : ∀ a, AtomWF a → (renderAtom a).length ≤ fuel → ∀ ti, ti ≤ text.length →
    checkedAtomOnce fuel (renderAtom a) text ti = some (matchAtomOnce fuel (renderAtom a) text ti)

theorem checked_seq {fuel : Nat} (ih : Checked text fuel) {s : Seq Leaf} (hwf : SeqWF s)
    (hlen : (renderSeq s).length < fuel + 1) {ti : Nat} (hti : ti ≤ text.length) :
    checkedSeq (fuel + 1) (renderSeq s) text ti =
      some (matchSeq (fuel + 1) (renderSeq s) text ti) := by
  cases s with
  | nil => rfl
  | cons a r s =>
    obtain ⟨hrep, hbehind⟩ := behind_atom a r s hwf.2
    have hparse := parseAtomEnd_atom a hwf.1 (renderRep r ++ renderSeq s)
    have hne := (renderAtom_head a hwf.1 (renderRep r ++ renderSeq s)).1
    have htake : (renderSeq (.cons a r s)).take (renderAtom a).length = renderAtom a := by
      rw [renderSeq, List.take_left]
    have hpos := renderAtom_length a
    have hinside : ¬ ((renderAtom a).length = 0 ∨
        (renderSeq (.cons a r s)).length < (renderAtom a).length) := by
      rw [renderSeq, List.length_append]
      omega
    rw [renderSeq, List.length_append, List.length_append] at hlen
    have honce := ih.once a hwf.1 (by omega) ti hti
    have hseq := ih.seq s hwf.2 (by omega)
    have hforward := (forward text fuel).once (renderAtom a) ti
    rw [← renderSeq.eq_2] at hparse hne
    rw [checkedSeq, matchSeq, if_neg hne, if_neg hne, hparse]
    dsimp only
    rw [if_neg hinside, hrep, htake, hbehind]
    cases r with
    | one =>
      dsimp only
      rw [honce, Option.bind_some]
      cases hm : matchAtomOnce fuel (renderAtom a) text ti with
      | none => rfl
      | some m => exact hseq m (hforward m hti hm).2
    | opt =>
      dsimp only
      rw [honce, Option.bind_some]
      cases hm : matchAtomOnce fuel (renderAtom a) text ti with
      | none => exact hseq ti hti
      | some m =>
        dsimp only
        rw [hseq m (hforward m hti hm).2, Option.bind_some, Option.bind_some]
        cases matchSeq fuel (renderSeq s) text m with
        | none => exact hseq ti hti
        | some e => rfl
    | star =>
      exact ih.star a s hwf.1 hwf.2 (by rw [renderRep_length .star (by decide)] at hlen; omega) ti hti
    | plus =>
      rw [renderRep_length .plus (by decide)] at hlen
      dsimp only
      rw [honce, Option.bind_some]
      cases hm : matchAtomOnce fuel (renderAtom a) text ti with
      | none => rfl
      | some m => exact ih.star a s hwf.1 hwf.2 (by omega) m (hforward m hti hm).2

theorem checked_once {fuel : Nat} (ih : Checked text fuel) {a : Atom Leaf} (hwf : AtomWF a)
    (hlen : (renderAtom a).length ≤ fuel + 1) {ti : Nat} (hti : ti ≤ text.length) :
    checkedAtomOnce (fuel + 1) (renderAtom a) text ti =
      some (matchAtomOnce (fuel + 1) (renderAtom a) text ti) := by
  rw [checkedAtomOnce_succ]
  cases a with
  | leaf l =>
    obtain ⟨hinside, hhead⟩ := atomInside_leaf hwf
    rw [renderAtom, hinside, if_neg nofun, if_neg hhead]
  | group alts =>
    have hclose : findClose (renderAtom (.group alts)) = some ((renderAlts alts).length + 1) :=
      findClose_group alts hwf []
    have hbody : (renderAtom (.group alts)).length - 1 = (renderAlts alts).length + 1 := by
      rw [renderAtom, List.length_cons, List.length_append]
      rfl
    have hinner : ((renderAtom (.group alts)).take ((renderAlts alts).length + 1)).drop 1 =
        renderAlts alts := by
      rw [renderAtom, List.take_succ_cons, List.drop_succ_cons, List.drop_zero, List.take_left]
    have hopen : (renderAtom (.group alts)).headD nul = '(' := rfl
    rw [atomInside_group hwf, if_neg nofun, if_pos hopen, matchAtomOnce_group fuel hopen hclose,
      hbody, hinner, splitTop_alts alts hwf]
    by_cases hend : text.length ≤ ti
    · rw [if_pos hend, if_pos hend]
    · rw [if_neg hend, if_neg hend]
      refine checkedFirst_eq fun b hb => ?_
      obtain ⟨s, hs, rfl⟩ := List.mem_map.mp hb
      obtain ⟨hswf, hle⟩ := branches_wf alts hwf s hs
      rw [renderAtom, List.length_cons, List.length_append, List.length_singleton] at hlen
      exact ih.seq s hswf (by omega) ti hti

theorem checked_render (text : Text) (fuel : Nat) : Checked text fuel := by
  induction fuel with
  | zero =>
    refine ⟨fun s _ h => absurd h (Nat.not_lt_zero _), fun a s _ _ h => absurd h (Nat.not_lt_zero _),
      fun a _ h => ?_⟩
    have := renderAtom_length a
    omega
  | succ fuel ih =>
    refine ⟨fun s hwf hlen ti hti => checked_seq ih hwf hlen hti,
      fun a s ha hs hlen ti hti => ?_, fun a ha hlen ti hti => checked_once ih ha hlen hti⟩
    have hpos := renderAtom_length a
    have hforward := (forward text fuel).once (renderAtom a)
    rw [checkedStar_succ, checkedChain_eq (ih.once a ha (by omega)) hforward hti (by omega),
      Option.bind_some, matchStar]
    refine checkedFirst_eq fun m hm => ih.seq s hs (by omega) m ?_
    exact (chain_bounded hforward _ hti m (List.mem_reverse.mp hm)).2

/-- **On a branch of a valid pattern the matcher is never stuck**, from any position of a text. -/
theorem checkedSeq_branch {pat br : Text} (text : Text) (hvalid : regexValid pat = true)
    (hbr : br ∈ splitTop pat) {ti : Nat} (hti : ti ≤ text.length) :
    checkedSeq (pat.length + 1) br text ti = some (matchSeq (pat.length + 1) br text ti) := by
  obtain ⟨r, hwf, rfl⟩ := regexValid_denotes hvalid
  rw [splitTop_alts r hwf] at hbr
  obtain ⟨s, hs, rfl⟩ := List.mem_map.mp hbr
  obtain ⟨hswf, hlen⟩ := branches_wf r hwf s hs
  exact (checked_render text _).seq s hswf (Nat.lt_succ_of_le hlen) ti hti

/-- `(a*)*b` repeats a group that reads nothing. -/
theorem checkedSeq_branch_empty : checkedSeq 7 ['(', 'a', '*', ')', '*', 'b'] ['a', 'a', 'b'] 0 =
    some (matchSeq 7 ['(', 'a', '*', ')', '*', 'b'] ['a', 'a', 'b'] 0) :=
  @checkedSeq_branch ['(', 'a', '*', ')', '*', 'b'] _ _ (by decide) (by decide) 0 (by decide)

end Regex
