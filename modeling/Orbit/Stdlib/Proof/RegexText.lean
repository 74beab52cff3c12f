import Orbit.Stdlib.Proof.RegexClass

/-!
# The text of a tree

The scanners pass over the text of a tree as a whole (`findClose_atom`, `splitTop_atom`), so that they
find its parts (`parseAtomEnd_atom`, `splitTop_alts`). What the validator accepts is the text of a
tree (`regexValid_denotes`), and of one tree only (`denotes_unique`).
-/

namespace Regex

open Lib.Backtrack (Rep Atom Seq Alts)

/-! ## Units -/

/-- A text that the scanners pass over as a whole, in whatever text it stands. -/
inductive Block : Text → Prop
  | char {c} : c ≠ '\\' → c ≠ '[' → c ≠ '(' → c ≠ ')' → c ≠ '|' → Block [c]
  | esc {e} : Block ['\\', e]
  | cls {u} : (∀ rest, parseClassEnd ('[' :: (u ++ rest)) = some (u.length + 1)) →
      Block ('[' :: u)

theorem findClose_skip (d : Int) (i : Nat) (w rest : Text) :
    findCloseFrom w.length d i (w ++ rest) = findCloseFrom 0 d (i + w.length) rest := by
  induction w generalizing i with
  | nil => rfl
  | cons c w ih =>
    rw [List.length_cons, List.cons_append, findCloseFrom_skip, ih]
    congr 1
    omega

theorem splitTop_skip (d : Int) (cur w rest : Text) :
    splitTopFrom w.length d cur (w ++ rest) = splitTopFrom 0 d (cur ++ w) rest := by
  induction w generalizing cur with
  | nil => rw [List.append_nil]; rfl
  | cons c w ih =>
    rw [List.length_cons, List.cons_append, splitTopFrom_skip, ih, List.append_assoc]
    rfl

theorem Block.findClose {w : Text} (h : Block w) (d : Int) (i : Nat) (rest : Text) :
    findCloseFrom 0 d i (w ++ rest) = findCloseFrom 0 d (i + w.length) rest := by
  cases h with
  | char hesc hcls hopen hclose =>
    rw [List.singleton_append, findCloseFrom_cons, if_neg hesc, if_neg hcls, if_neg hopen,
      if_neg hclose]
    rfl
  | @esc e =>
    rw [List.cons_append, findCloseFrom_cons, if_pos rfl]
    exact findClose_skip d (i + 1) [e] rest
  | @cls u hu =>
    rw [List.cons_append, findCloseFrom_cons, if_neg (by decide), if_pos rfl, hu rest]
    dsimp only
    rw [Nat.add_sub_cancel, findClose_skip, List.length_cons]
    congr 1
    omega

theorem Block.splitTop {w : Text} (h : Block w) (d : Int) (cur rest : Text) :
    splitTopFrom 0 d cur (w ++ rest) = splitTopFrom 0 d (cur ++ w) rest := by
  cases h with
  | char hesc hcls hopen hclose hbar =>
    rw [List.singleton_append, splitTopFrom_cons, if_neg hesc, if_neg hcls, if_neg hopen,
      if_neg hclose, if_neg fun h => hbar h.1]
  | @esc e =>
    rw [List.cons_append, splitTopFrom_cons, if_pos rfl]
    refine (splitTop_skip d (cur ++ ['\\']) [e] rest).trans ?_
    rw [List.append_assoc]
    rfl
  | @cls u hu =>
    rw [List.cons_append, splitTopFrom_cons, if_neg (by decide), if_pos rfl, hu rest]
    dsimp only
    rw [Nat.add_sub_cancel, splitTop_skip, List.append_assoc]
    rfl

/-! ## Leaves -/

theorem isSpecial_eq_false {c : Char} (h : isSpecial c = false) :
    c ≠ '\\' ∧ c ≠ '.' ∧ c ≠ '^' ∧ c ≠ '$' ∧ c ≠ '*' ∧ c ≠ '+' ∧ c ≠ '?' ∧ c ≠ '|' ∧ c ≠ ')' ∧
      c ≠ '[' ∧ c ≠ '(' := by
  unfold isSpecial at h
  simp only [Bool.or_eq_false_iff, decide_eq_false_iff_not] at h
  obtain ⟨⟨⟨⟨⟨⟨⟨⟨⟨⟨h1, h2⟩, h3⟩, h4⟩, h5⟩, h6⟩, h7⟩, h8⟩, h9⟩, h10⟩, h11⟩ := h
  exact ⟨h1, h2, h3, h4, h5, h6, h7, h8, h9, h10, h11⟩

/-- **The validator finds the end of a class.** -/
theorem parseClassEnd_cls {neg : Bool} {items : List ClassItem} (h : (Leaf.cls neg items).WF)
    (rest : Text) : parseClassEnd ((Leaf.cls neg items).render ++ rest) =
      some (Leaf.cls neg items).render.length := by
  obtain ⟨hne, hhat, hitems⟩ := h
  unfold parseClassEnd Leaf.render
  cases neg with
  | true =>
    have hend := classEnd_render rest (n := 0) (i := 2) hitems (.inr hne)
    simp only [if_true, List.cons_append, List.nil_append, List.tail_cons, List.headD_cons,
      List.append_assoc, List.drop_succ_cons, List.drop_zero, List.length_cons, List.length_append,
      List.length_nil]
    rw [hend]
    congr 1
    omega
  | false =>
    have hend := classEnd_render rest (n := 0) (i := 1) hitems (.inr hne)
    have hhead := renderItems_head hne (hhat rfl) hitems (']' :: rest)
    simp only [Bool.false_eq_true, if_false, List.cons_append, List.nil_append, List.tail_cons,
      List.append_assoc, List.drop_succ_cons, List.drop_zero, List.length_cons, List.length_append,
      List.length_nil]
    rw [if_neg hhead, hend]
    congr 1
    omega

theorem Leaf.block {l : Leaf} (h : l.WF) : Block l.render := by
  cases l with
  | char c =>
    obtain ⟨h1, -, -, -, -, -, -, h8, h9, h10, h11⟩ := isSpecial_eq_false h
    exact .char h1 h10 h11 h9 h8
  | esc e => exact .esc
  | any => exact .char (by decide) (by decide) (by decide) (by decide) (by decide)
  | bol => exact .char (by decide) (by decide) (by decide) (by decide) (by decide)
  | eol => exact .char (by decide) (by decide) (by decide) (by decide) (by decide)
  | cls neg items => exact .cls fun rest => parseClassEnd_cls h rest

/-! ## Scanning the text of a tree -/

mutual

/-- **The search for a closing parenthesis passes over atoms.** -/
theorem findClose_atom (a : Atom Leaf) (h : AtomWF a) {d : Int} (hd : 0 < d) (i : Nat)
    (rest : Text) : findCloseFrom 0 d i (renderAtom a ++ rest) =
      findCloseFrom 0 d (i + (renderAtom a).length) rest := by
  cases a with
  | leaf l => exact (Leaf.block h).findClose d i rest
  | group alts =>
    rw [renderAtom, List.cons_append, List.append_assoc, findCloseFrom_cons, if_neg (by decide),
      if_neg (by decide), if_pos rfl, findClose_alts alts h (by omega), List.singleton_append,
      findCloseFrom_cons, if_neg (by decide), if_neg (by decide), if_neg (by decide), if_pos rfl,
      if_neg (by omega), Int.add_sub_cancel, List.length_cons, List.length_append,
      List.length_singleton]
    congr 1
    omega

theorem findClose_seq (s : Seq Leaf) (h : SeqWF s) {d : Int} (hd : 0 < d) (i : Nat)
    (rest : Text) : findCloseFrom 0 d i (renderSeq s ++ rest) =
      findCloseFrom 0 d (i + (renderSeq s).length) rest := by
  cases s with
  | nil => rfl
  | cons a r s =>
    have hrep : ∀ j, findCloseFrom 0 d j (renderRep r ++ (renderSeq s ++ rest)) =
        findCloseFrom 0 d (j + (renderRep r).length) (renderSeq s ++ rest) := by
      intro j
      cases r with
      | one => rfl
      | _ => exact (Block.char (by decide) (by decide) (by decide) (by decide)
          (by decide)).findClose d j _
    rw [renderSeq, List.append_assoc, List.append_assoc, findClose_atom a h.1 hd, hrep,
      findClose_seq s h.2 hd, List.length_append, List.length_append]
    congr 1
    omega

theorem findClose_alts (alts : Pattern) (h : AltsWF alts) {d : Int} (hd : 0 < d) (i : Nat)
    (rest : Text) : findCloseFrom 0 d i (renderAlts alts ++ rest) =
      findCloseFrom 0 d (i + (renderAlts alts).length) rest := by
  cases alts with
  | last s => exact findClose_seq s h.2 hd i rest
  | or s alts =>
    rw [renderAlts, List.append_assoc, findClose_seq s h.2.1 hd, List.cons_append, findCloseFrom_cons,
      if_neg (by decide), if_neg (by decide), if_neg (by decide), if_neg (by decide),
      findClose_alts alts h.2.2 hd, List.length_append, List.length_cons]
    congr 1
    omega

end

mutual

/-- **The search for the bars passes over atoms.** -/
theorem splitTop_atom (a : Atom Leaf) (h : AtomWF a) {d : Int} (hd : 0 ≤ d) (cur rest : Text) :
    splitTopFrom 0 d cur (renderAtom a ++ rest) =
      splitTopFrom 0 d (cur ++ renderAtom a) rest := by
  cases a with
  | leaf l => exact (Leaf.block h).splitTop d cur rest
  | group alts =>
    rw [renderAtom, List.cons_append, List.append_assoc, splitTopFrom_cons, if_neg (by decide),
      if_neg (by decide), if_pos rfl, splitTop_inner alts h (by omega), List.singleton_append,
      splitTopFrom_cons, if_neg (by decide), if_neg (by decide), if_neg (by decide), if_pos rfl,
      Int.add_sub_cancel, List.append_assoc, List.append_assoc]
    rfl

theorem splitTop_seq (s : Seq Leaf) (h : SeqWF s) {d : Int} (hd : 0 ≤ d) (cur rest : Text) :
    splitTopFrom 0 d cur (renderSeq s ++ rest) = splitTopFrom 0 d (cur ++ renderSeq s) rest := by
  cases s with
  | nil => rw [renderSeq, List.append_nil]; rfl
  | cons a r s =>
    have hrep : ∀ cur, splitTopFrom 0 d cur (renderRep r ++ (renderSeq s ++ rest)) =
        splitTopFrom 0 d (cur ++ renderRep r) (renderSeq s ++ rest) := by
      intro cur
      cases r with
      | one => rw [renderRep, List.append_nil]; rfl
      | _ => exact (Block.char (by decide) (by decide) (by decide) (by decide)
          (by decide)).splitTop d cur _
    rw [renderSeq, List.append_assoc, List.append_assoc, splitTop_atom a h.1 hd, hrep,
      splitTop_seq s h.2 hd, List.append_assoc, List.append_assoc]

theorem splitTop_inner (alts : Pattern) (h : AltsWF alts) {d : Int} (hd : 0 < d)
    (cur rest : Text) : splitTopFrom 0 d cur (renderAlts alts ++ rest) =
      splitTopFrom 0 d (cur ++ renderAlts alts) rest := by
  cases alts with
  | last s => exact splitTop_seq s h.2 (by omega) cur rest
  | or s alts =>
    rw [renderAlts, List.append_assoc, splitTop_seq s h.2.1 (by omega), List.cons_append,
      splitTopFrom_cons, if_neg (by decide), if_neg (by decide), if_neg (by decide),
      if_neg (by decide), if_neg (by omega), splitTop_inner alts h.2.2 hd, List.append_assoc,
      List.append_assoc]
    rfl

end

/-- **A pattern is split into its branches.** -/
theorem splitTop_alts (alts : Pattern) (h : AltsWF alts) :
    splitTop (renderAlts alts) = (Branches alts).map renderSeq := by
  unfold splitTop
  cases alts with
  | last s =>
    have hs := splitTop_seq s h.2 (Int.le_refl 0) [] []
    rw [List.append_nil] at hs
    exact hs
  | or s alts =>
    rw [renderAlts, splitTop_seq s h.2.1 (Int.le_refl 0), List.nil_append, splitTopFrom_cons,
      if_neg (by decide), if_neg (by decide), if_neg (by decide), if_neg (by decide),
      if_pos ⟨rfl, rfl⟩, Branches, List.map_cons]
    exact congrArg _ (splitTop_alts alts h.2.2)

theorem findClose_group (alts : Pattern) (h : AltsWF alts) (rest : Text) :
    findClose ('(' :: (renderAlts alts ++ ')' :: rest)) = some ((renderAlts alts).length + 1) := by
  unfold findClose
  rw [findCloseFrom_cons, if_neg (by decide), if_neg (by decide), if_pos rfl,
    findClose_alts alts h (by decide), findCloseFrom_cons, if_neg (by decide), if_neg (by decide),
    if_neg (by decide), if_pos rfl, if_pos (by decide), Nat.zero_add, Nat.add_comm]

/-- **The end of an atom.** -/
theorem parseAtomEnd_atom (a : Atom Leaf) (h : AtomWF a) (rest : Text) :
    parseAtomEnd (renderAtom a ++ rest) = some (renderAtom a).length := by
  cases a with
  | leaf l =>
    cases l with
    | char c =>
      obtain ⟨h1, h2, h3, h4, h5, h6, h7, h8, h9, h10, h11⟩ := isSpecial_eq_false h
      change parseAtomEnd (c :: rest) = some 1
      unfold parseAtomEnd
      dsimp only
      rw [if_neg h1, if_neg (by rintro (h | h | h) <;> contradiction),
        if_neg (by rintro (h | h | h | h | h) <;> contradiction), if_neg h10, if_neg h11]
    | esc e =>
      change parseAtomEnd ('\\' :: e :: rest) = some 2
      unfold parseAtomEnd
      dsimp only
      rw [if_pos rfl]
      exact if_pos h
    | any => rfl
    | bol => rfl
    | eol => rfl
    | cls neg items => exact parseClassEnd_cls h rest
  | group alts =>
    have hclose := findClose_group alts h rest
    rw [renderAtom, List.cons_append, List.append_assoc]
    unfold parseAtomEnd
    dsimp only
    rw [if_neg (by decide), if_neg (by decide), if_neg (by decide), if_neg (by decide),
      if_pos rfl, List.singleton_append, hclose, List.length_cons, List.length_append]
    rfl

/-! ## Quantifiers -/

/-- An atom does not begin with a quantifier. -/
theorem renderAtom_head (a : Atom Leaf) (h : AtomWF a) (rest : Text) :
    renderAtom a ++ rest ≠ [] ∧ repOf ((renderAtom a ++ rest).headD nul) = .one := by
  cases a with
  | leaf l =>
    cases l with
    | char c =>
      obtain ⟨-, -, -, -, h5, h6, h7, -⟩ := isSpecial_eq_false h
      refine ⟨List.cons_ne_nil _ _, ?_⟩
      change repOf c = .one
      unfold repOf
      rw [if_neg h5, if_neg h6, if_neg h7]
    | _ => exact ⟨List.cons_ne_nil _ _, rfl⟩
  | group alts => exact ⟨List.cons_ne_nil _ _, rfl⟩

theorem renderSeq_head (s : Seq Leaf) (h : SeqWF s) : repOf ((renderSeq s).headD nul) = .one := by
  cases s with
  | nil => rfl
  | cons a r s => exact (renderAtom_head a h.1 _).2

/-- The quantifier of an atom, and what is behind it. -/
theorem behind_atom (a : Atom Leaf) (r : Rep) (s : Seq Leaf) (hs : SeqWF s) :
    repOf (((renderSeq (.cons a r s)).drop (renderAtom a).length).headD nul) = r ∧
      behind (renderAtom a).length (renderSeq (.cons a r s)) = renderSeq s := by
  have hrep : repOf ((renderRep r ++ renderSeq s).headD nul) = r := by
    cases r with
    | one => exact renderSeq_head s hs
    | _ => rfl
  unfold behind
  rw [renderSeq, List.drop_left, hrep]
  refine ⟨rfl, ?_⟩
  cases r with
  | one => exact List.drop_left
  | _ => rw [if_neg (by decide), ← List.drop_drop, List.drop_left]; rfl

/-! ## What the validator accepts -/

/-- The branches with the bars between them. -/
def joinBars : List Text → Text
  | [] => []
  | [b] => b
  | b :: bs => b ++ '|' :: joinBars bs

theorem joinBars_cons {b : Text} {bs : List Text} (h : bs ≠ []) :
    joinBars (b :: bs) = b ++ '|' :: joinBars bs := by
  cases bs with
  | nil => exact absurd rfl h
  | cons b' bs => rfl

/-- The branches and the bars are the whole text. -/
theorem splitTop_join (skip : Nat) (d : Int) (cur s : Text) :
    splitTopFrom skip d cur s ≠ [] ∧ joinBars (splitTopFrom skip d cur s) = cur ++ s := by
  induction s generalizing skip d cur with
  | nil =>
    rw [List.append_nil]
    exact ⟨List.cons_ne_nil _ _, rfl⟩
  | cons c t ih =>
    have hread : ∀ skip' d', splitTopFrom skip' d' (cur ++ [c]) t ≠ [] ∧
        joinBars (splitTopFrom skip' d' (cur ++ [c]) t) = cur ++ c :: t := by
      intro skip' d'
      have := ih skip' d' (cur ++ [c])
      rwa [List.append_assoc] at this
    cases skip with
    | succ skip => exact hread skip d
    | zero =>
      rw [splitTopFrom_cons]
      split
      · exact hread _ _
      · split
        · split
          · exact ⟨List.cons_ne_nil _ _, rfl⟩
          · exact hread _ _
        · split
          · exact hread _ _
          · split
            · exact hread _ _
            · split
              · next hbar =>
                obtain ⟨hne, hjoin⟩ := ih 0 d []
                refine ⟨List.cons_ne_nil _ _, ?_⟩
                rw [joinBars_cons hne, hjoin, hbar.1]
                rfl
              · exact hread _ _

/-- The closing parenthesis that is found. -/
theorem findClose_split {skip : Nat} {d : Int} {i k : Nat} {s : Text}
    (h : findCloseFrom skip d i s = some k) :
    ∃ w rest, s = w ++ ')' :: rest ∧ k = i + w.length := by
  induction s generalizing skip d i with
  | nil =>
    cases h
  | cons c t ih =>
    have hread : ∀ {skip' d'}, findCloseFrom skip' d' (i + 1) t = some k →
        ∃ w rest, c :: t = w ++ ')' :: rest ∧ k = i + w.length := by
      intro skip' d' h
      obtain ⟨w, rest, ht, hk⟩ := ih h
      refine ⟨c :: w, rest, by rw [ht]; rfl, ?_⟩
      rw [hk, List.length_cons]
      omega
    cases skip with
    | succ skip => exact hread h
    | zero =>
      rw [findCloseFrom_cons] at h
      split at h
      · exact hread h
      · split at h
        · split at h
          · cases h
          · exact hread h
        · split at h
          · exact hread h
          · split at h
            · next hc =>
              split at h
              · exact ⟨[], t, by rw [hc]; rfl, (Option.some.inj h).symm⟩
              · exact hread h
            · exact hread h

/-- The text of a leaf that a pattern begins with. -/
theorem leaf_of_parseAtomEnd {s : Text} {n : Nat} (h : parseAtomEnd s = some n)
    (hopen : s.headD nul ≠ '(') : ∃ l : Leaf, l.WF ∧ ∃ rest, s = l.render ++ rest ∧
      n = l.render.length := by
  unfold parseAtomEnd at h
  cases s with
  | nil => cases h
  | cons c t =>
    dsimp only at h
    split at h
    · next hc =>
      cases t with
      | nil => cases h
      | cons e u =>
        dsimp only at h
        split at h
        · next he => exact ⟨.esc e, he, u, by rw [hc]; rfl, (Option.some.inj h).symm⟩
        · cases h
    · next hesc =>
      split at h
      · next hc =>
        rcases hc with rfl | rfl | rfl
        · exact ⟨.any, trivial, t, rfl, (Option.some.inj h).symm⟩
        · exact ⟨.bol, trivial, t, rfl, (Option.some.inj h).symm⟩
        · exact ⟨.eol, trivial, t, rfl, (Option.some.inj h).symm⟩
      · next hdot =>
        split at h
        · cases h
        · next hquant =>
          split at h
          · next hc =>
            obtain rfl := hc
            unfold parseClassEnd at h
            split at h
            · next hhat =>
              obtain ⟨items, rest, hitems, hne, ht, hn⟩ := classEnd_items h
              have hne' : items ≠ [] := hne.resolve_left (Nat.lt_irrefl 0)
              cases t with
              | nil => exact absurd hhat (by decide)
              | cons c u =>
                obtain rfl : c = '^' := hhat
                obtain rfl : u = renderItems items ++ ']' :: rest := ht
                refine ⟨.cls true items, ⟨hne', nofun, hitems⟩, rest, ?_, ?_⟩
                · simp [Leaf.render]
                · simp only [hn, Leaf.render, if_true, List.length_cons, List.length_append,
                    List.length_nil]
                  omega
            · next hhat =>
              obtain ⟨items, rest, hitems, hne, ht, hn⟩ := classEnd_items h
              have hne' : items ≠ [] := hne.resolve_left (Nat.lt_irrefl 0)
              obtain rfl : t = renderItems items ++ ']' :: rest := ht
              refine ⟨.cls false items, ⟨hne', fun _ hhead => ?_, hitems⟩, rest, ?_, ?_⟩
              · obtain ⟨items', rfl⟩ := List.head?_eq_some_iff.mp hhead
                exact hhat rfl
              · simp [Leaf.render]
              · simp only [hn, Leaf.render, Bool.false_eq_true, if_false, List.length_cons,
                  List.length_append, List.length_nil]
                omega
          · next hcls =>
            have hc : ¬ c = '(' := hopen
            rw [if_neg hc] at h
            refine ⟨.char c, ?_, t, rfl, (Option.some.inj h).symm⟩
            simp only [not_or] at hdot hquant
            change isSpecial c = false
            unfold isSpecial
            simp only [Bool.or_eq_false_iff, decide_eq_false_iff_not]
            exact ⟨⟨⟨⟨⟨⟨⟨⟨⟨⟨hesc, hdot.1⟩, hdot.2.1⟩, hdot.2.2⟩, hquant.1⟩, hquant.2.1⟩,
              hquant.2.2.1⟩, hquant.2.2.2.1⟩, hquant.2.2.2.2⟩, hcls⟩, hc⟩

/-- What follows an atom is its quantifier and what is behind it. -/
theorem rep_behind (s : Text) (n : Nat) :
    s.drop n = renderRep (repOf ((s.drop n).headD nul)) ++ behind n s := by
  have htail : s.drop (n + 1) = (s.drop n).tail := (List.tail_drop).symm
  unfold behind
  cases hs : s.drop n with
  | nil =>
    rw [show repOf (([] : Text).headD nul) = .one from rfl, if_pos rfl, hs]
    rfl
  | cons c t =>
    rw [hs, List.tail_cons] at htail
    rw [List.headD_cons]
    have hsome : ∀ r, renderRep r = [c] → r ≠ .one →
        c :: t = renderRep r ++ s.drop (if r = .one then n else n + 1) := by
      intro r hr hne
      rw [hr, if_neg hne, htail]
      rfl
    unfold repOf
    by_cases hstar : c = '*'
    · rw [if_pos hstar]
      exact hsome .star (by rw [hstar]; rfl) nofun
    · rw [if_neg hstar]
      by_cases hplus : c = '+'
      · rw [if_pos hplus]
        exact hsome .plus (by rw [hplus]; rfl) nofun
      · rw [if_neg hplus]
        by_cases hopt : c = '?'
        · rw [if_pos hopt]
          exact hsome .opt (by rw [hopt]; rfl) nofun
        · rw [if_neg hopt, if_pos rfl, hs]
          rfl

theorem alts_of_branches {bs : List Text} (hne : bs ≠ [])
    (h : ∀ b ∈ bs, ∃ s, s ≠ .nil ∧ SeqWF s ∧ renderSeq s = b) :
    ∃ alts : Pattern, AltsWF alts ∧ renderAlts alts = joinBars bs := by
  induction bs with
  | nil => exact absurd rfl hne
  | cons b bs ih =>
    obtain ⟨s, hs, hwf, hrender⟩ := h b List.mem_cons_self
    cases bs with
    | nil => exact ⟨.last s, ⟨hs, hwf⟩, hrender⟩
    | cons b' bs =>
      obtain ⟨alts, halts, hjoin⟩ := ih (List.cons_ne_nil _ _)
        fun x hx => h x (List.mem_cons_of_mem _ hx)
      refine ⟨.or s alts, ⟨hs, hwf, halts⟩, ?_⟩
      rw [renderAlts, hrender, hjoin]
      rfl

/-- The text of the atom that a pattern begins with; `hinner` is what the validator knows of the
branches of a group. -/
theorem atom_of_parseAtomEnd {s : Text} {n : Nat} (h : parseAtomEnd s = some n)
    (hinner : s.headD nul = '(' → ∀ b ∈ splitTop ((s.take (n - 1)).drop 1),
      ∃ t, t ≠ .nil ∧ SeqWF t ∧ renderSeq t = b) :
    ∃ a, AtomWF a ∧ ∃ rest, s = renderAtom a ++ rest ∧ n = (renderAtom a).length := by
  by_cases hopen : s.headD nul = '('
  · have hgroup : parseAtomEnd s = (findClose s).map (· + 1) := by
      cases s with
      | nil => exact absurd hopen (by decide)
      | cons c t =>
        obtain rfl : c = '(' := hopen
        rfl
    rw [hgroup, Option.map_eq_some_iff] at h
    obtain ⟨k, hk, rfl⟩ := h
    obtain ⟨w, rest, hs, hw⟩ := findClose_split hk
    rw [Nat.zero_add] at hw
    cases w with
    | nil =>
      rw [hs] at hopen
      exact absurd (show ')' = '(' from hopen) (by decide)
    | cons c inner =>
      obtain rfl : c = '(' := by rw [hs] at hopen; exact hopen
      have hslice : (s.take (k + 1 - 1)).drop 1 = inner := by
        rw [Nat.add_sub_cancel, hs, hw, List.take_left]
        rfl
      obtain ⟨hne, hjoin⟩ := splitTop_join 0 0 [] inner
      obtain ⟨alts, halts, hrender⟩ := alts_of_branches hne (hslice ▸ hinner hopen)
      rw [hjoin, List.nil_append] at hrender
      refine ⟨.group alts, halts, rest, ?_, ?_⟩
      · rw [hs, renderAtom, hrender]
        simp
      · rw [hw, renderAtom, hrender]
        simp
  · obtain ⟨l, hl, rest, hs, hn⟩ := leaf_of_parseAtomEnd h hopen
    exact ⟨.leaf l, hl, rest, hs, hn⟩

/-- **What the validator accepts is the text of a tree.** -/
theorem valid_render (fuel : Nat) :
    (∀ br, validSeq fuel br = true → ∃ s, s ≠ .nil ∧ SeqWF s ∧ renderSeq s = br) ∧
      ∀ br, validFrom fuel br = true → ∃ s, SeqWF s ∧ renderSeq s = br := by
  induction fuel with
  | zero =>
    refine ⟨fun br h => ?_, fun br h => ?_⟩
    · rw [validSeq] at h
      cases h
    · rw [validFrom] at h
      cases h
  | succ fuel ih =>
    obtain ⟨ihseq, ihfrom⟩ := ih
    refine ⟨fun br h => ?_, fun br h => ?_⟩
    · rw [validSeq] at h
      split at h
      · cases h
      · next hne =>
        obtain ⟨s, hs, rfl⟩ := ihfrom br h
        refine ⟨s, ?_, hs, rfl⟩
        rintro rfl
        exact hne rfl
    · rw [validFrom] at h
      split at h
      · next hnil => exact ⟨.nil, trivial, hnil.symm⟩
      · split at h
        · cases h
        · next n hn =>
          obtain ⟨hgroup, hrest⟩ := Bool.and_eq_true_iff.mp h
          obtain ⟨a, ha, rest, hbr, hlen⟩ := atom_of_parseAtomEnd hn fun hopen b hb => by
            rw [if_pos hopen, List.all_eq_true] at hgroup
            exact ihseq b (hgroup b hb)
          obtain ⟨s, hs, hrender⟩ := ihfrom _ hrest
          refine ⟨.cons a (repOf ((br.drop n).headD nul)) s, ⟨ha, hs⟩, ?_⟩
          rw [renderSeq, hrender, ← rep_behind, hlen]
          conv => lhs; arg 2; rw [hbr]
          rw [List.drop_left, ← hbr]

/-- **A pattern that the validator accepts denotes a tree.** -/
theorem regexValid_denotes {pat : Text} (h : regexValid pat = true) : ∃ r, Denotes pat r := by
  unfold regexValid at h
  rw [List.all_eq_true] at h
  obtain ⟨hne, hjoin⟩ := splitTop_join 0 0 [] pat
  obtain ⟨r, hr, hrender⟩ := alts_of_branches hne fun b hb => (valid_render _).1 b (h b hb)
  exact ⟨r, hr, hrender.trans hjoin⟩

/-! ## One tree -/

theorem items_inj {plain : Option Char} {items items' : List ClassItem} (h : Items plain items)
    (h' : Items plain items') (heq : renderItems items = renderItems items') : items = items' := by
  -- a hyphen that stands for itself begins no range
  have hhyphen : ∀ {lo hi : Char} {its its' : List ClassItem}, Items (some lo) (.char '-' :: its) →
      Items (some lo) (.upTo lo hi :: its') → renderItems its ≠ hi :: renderItems its' := by
    intro lo hi its its' hits hits' hr
    have hends := hits.2.2.1 rfl nofun
    cases its with
    | nil => cases hr
    | cons item its =>
      cases item with
      | char c => exact hends.elim
      | upTo lo hi => exact hends.elim
      | esc e => exact hits'.2.2.1 (List.cons.inj hr).1.symm
  induction items generalizing plain items' with
  | nil =>
    cases items' with
    | nil => rfl
    | cons item' items' => cases item' <;> cases heq
  | cons item items ih =>
    cases items' with
    | nil => cases item <;> cases heq
    | cons item' items' =>
      rw [renderItems_cons, renderItems_cons] at heq
      cases item with
      | char c =>
        cases item' with
        | char c' =>
          obtain ⟨rfl, hrest⟩ := List.cons.inj heq
          rw [ih h.2.2.2 h'.2.2.2 hrest]
        | upTo lo hi =>
          obtain ⟨rfl, hrest⟩ := List.cons.inj heq
          obtain rfl := h'.1
          exact absurd hrest (hhyphen h h')
        | esc e => exact absurd (List.cons.inj heq).1 h.2.1
      | upTo lo hi =>
        cases item' with
        | char c' =>
          obtain ⟨rfl, hrest⟩ := List.cons.inj heq
          obtain rfl := h.1
          exact absurd hrest.symm (hhyphen h' h)
        | upTo lo' hi' =>
          obtain ⟨rfl, hrest⟩ := List.cons.inj (List.cons.inj heq).2
          obtain rfl := h.1
          rw [Option.some.inj h'.1, ih h.2.2.2.2 h'.2.2.2.2 hrest]
        | esc e => exact absurd (List.cons.inj heq).1 (by decide)
      | esc e =>
        cases item' with
        | char c' => exact absurd (List.cons.inj heq).1.symm h'.2.1
        | upTo lo hi => exact absurd (List.cons.inj heq).1 (by decide)
        | esc e' =>
          obtain ⟨rfl, hrest⟩ := List.cons.inj (List.cons.inj heq).2
          rw [ih h.2 h'.2 hrest]

theorem leaf_inj {l l' : Leaf} (h : l.WF) (h' : l'.WF) (heq : l.render = l'.render) : l = l' := by
  have hchar : ∀ {c : Char} {k : Leaf}, isSpecial c = false → (Leaf.char c).render = k.render →
      k = .char c := by
    intro c k hc hk
    cases k with
    | char d => rw [(List.cons.inj hk).1]
    | _ =>
      rw [(List.cons.inj hk).1] at hc
      cases hc
  cases l with
  | char c => exact (hchar h heq).symm
  | esc e =>
    cases l' with
    | char c => exact hchar h' heq.symm
    | esc e' => rw [(List.cons.inj (List.cons.inj heq).2).1]
    | _ => exact absurd (List.cons.inj heq).1 (by decide)
  | any =>
    cases l' with
    | char c => exact hchar h' heq.symm
    | any => rfl
    | _ => exact absurd (List.cons.inj heq).1 (by decide)
  | bol =>
    cases l' with
    | char c => exact hchar h' heq.symm
    | bol => rfl
    | _ => exact absurd (List.cons.inj heq).1 (by decide)
  | eol =>
    cases l' with
    | char c => exact hchar h' heq.symm
    | eol => rfl
    | _ => exact absurd (List.cons.inj heq).1 (by decide)
  | cls neg items =>
    cases l' with
    | char c => exact hchar h' heq.symm
    | cls neg' items' =>
      obtain ⟨hne, hhat, hitems⟩ := h
      obtain ⟨hne', hhat', hitems'⟩ := h'
      have hbody := List.append_cancel_right (List.cons.inj heq).2
      cases neg with
      | true =>
        cases neg' with
        | true => rw [items_inj hitems hitems' (List.cons.inj hbody).2]
        | false =>
          have hhead := renderItems_head hne' (hhat' rfl) hitems' []
          rw [List.append_nil, ← show _ = renderItems items' from hbody] at hhead
          exact absurd rfl hhead
      | false =>
        cases neg' with
        | false => rw [items_inj hitems hitems' hbody]
        | true =>
          have hhead := renderItems_head hne (hhat rfl) hitems []
          rw [List.append_nil, show renderItems items = _ from hbody] at hhead
          exact absurd rfl hhead
    | _ => exact absurd (List.cons.inj heq).1 (by decide)

theorem branches_ne_nil (r : Pattern) : Branches r ≠ [] := by
  cases r <;> exact List.cons_ne_nil _ _

theorem renderAlts_join (r : Pattern) (h : AltsWF r) :
    joinBars ((Branches r).map renderSeq) = renderAlts r := by
  obtain ⟨-, hjoin⟩ := splitTop_join 0 0 [] (renderAlts r)
  exact splitTop_alts r h ▸ hjoin

mutual

theorem atom_inj (a a' : Atom Leaf) (h : AtomWF a) (h' : AtomWF a')
    (heq : renderAtom a = renderAtom a') : a = a' := by
  have hgroup : ∀ {l : Leaf} {alts : Pattern}, l.WF →
      l.render ≠ renderAtom (.group alts) := by
    intro l alts hl hr
    cases l with
    | char c => exact (isSpecial_eq_false hl).2.2.2.2.2.2.2.2.2.2 (List.cons.inj hr).1
    | _ => exact absurd (List.cons.inj hr).1 (by decide)
  cases a with
  | leaf l =>
    cases a' with
    | leaf l' => rw [leaf_inj h h' heq]
    | group alts' => exact absurd heq (hgroup h)
  | group alts =>
    cases a' with
    | leaf l' => exact absurd heq.symm (hgroup h')
    | group alts' =>
      rw [alts_inj alts alts' h h' (List.append_cancel_right (List.cons.inj heq).2)]

theorem seq_inj (s s' : Seq Leaf) (h : SeqWF s) (h' : SeqWF s')
    (heq : renderSeq s = renderSeq s') : s = s' := by
  cases s with
  | nil =>
    cases s' with
    | nil => rfl
    | cons a' r' s' => exact absurd heq.symm (renderAtom_head a' h'.1 _).1
  | cons a r s =>
    cases s' with
    | nil => exact absurd heq (renderAtom_head a h.1 _).1
    | cons a' r' s' =>
      have hend := parseAtomEnd_atom a h.1 (renderRep r ++ renderSeq s)
      have hend' := parseAtomEnd_atom a' h'.1 (renderRep r' ++ renderSeq s')
      rw [renderSeq, renderSeq] at heq
      rw [heq, hend', Option.some.injEq] at hend
      obtain ⟨hatom, -⟩ := List.append_inj heq hend.symm
      obtain ⟨hr, hb⟩ := behind_atom a r s h.2
      obtain ⟨hr', hb'⟩ := behind_atom a' r' s' h'.2
      rw [renderSeq, heq, ← hend] at hr hb
      rw [renderSeq, hr] at hr'
      rw [renderSeq, hb] at hb'
      rw [atom_inj a a' h.1 h'.1 hatom, hr', seq_inj s s' h.2 h'.2 hb']

theorem alts_inj (r r' : Pattern) (h : AltsWF r) (h' : AltsWF r')
    (heq : renderAlts r = renderAlts r') : r = r' := by
  have hsplit := splitTop_alts r h
  rw [heq, splitTop_alts r' h'] at hsplit
  cases r with
  | last s =>
    cases r' with
    | last s' => rw [seq_inj s s' h.2 h'.2 heq]
    | or s' alts' =>
      have := List.map_eq_nil_iff.mp (List.cons.inj hsplit).2
      exact absurd this (branches_ne_nil alts')
  | or s alts =>
    cases r' with
    | last s' =>
      have := List.map_eq_nil_iff.mp (List.cons.inj hsplit).2.symm
      exact absurd this (branches_ne_nil alts)
    | or s' alts' =>
      obtain ⟨hs, hrest⟩ := List.cons.inj hsplit
      have hjoin : renderAlts alts = renderAlts alts' := by
        rw [← renderAlts_join alts h.2.2, ← renderAlts_join alts' h'.2.2]
        exact congrArg joinBars hrest.symm
      rw [seq_inj s s' h.2.1 h'.2.1 hs.symm, alts_inj alts alts' h.2.2 h'.2.2 hjoin]

end

/-- **A pattern text denotes one tree.** -/
theorem denotes_unique {pat : Text} {r r' : Pattern} (h : Denotes pat r) (h' : Denotes pat r') :
    r = r' := alts_inj r r' h.1 h'.1 (h.2.trans h'.2.symm)

end Regex
