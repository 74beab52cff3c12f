import Mathlib.Data.List.Basic
import Orbit.Stdlib.Proof.RegexText

/-!
# The matcher

On the text of a tree the matcher is committed backtracking on the tree (`matches_render`), with the
leaves as it reads them (`Leaf.run`). It decides the language of a pattern where it is direct
(`regexMatch_iff`): a group is left with its first end and refused at the end of the text, a branch
is left with its first success, which need not cover the text (`regexMatch_group`), and a hyphen in
a class may be read otherwise than it is meant.
-/

namespace Regex

open Lib.Backtrack (Rep Atom Seq Alts chain)

variable {text : Text}

/-! ## Leaves -/

theorem step_bol (i : Nat) : Leaf.step text .bol i = if i = 0 then some i else none := rfl

theorem step_eol (i : Nat) : Leaf.step text .eol i = if i = text.length then some i else none := rfl

/-- A leaf that is no anchor reads a character. -/
theorem step_reader {l : Leaf} (hbol : l ≠ .bol) (heol : l ≠ .eol) (i : Nat) :
    Leaf.step text l i = if text.length ≤ i then none
      else if l.reads (text.getD i nul) then some (i + 1) else none := by
  by_cases hi : text.length ≤ i
  · rw [if_pos hi]
    cases l with
    | bol => exact absurd rfl hbol
    | eol => exact absurd rfl heol
    | _ =>
      unfold Leaf.step
      dsimp only
      rw [List.getElem?_eq_none hi]
  · rw [if_neg hi, List.getD_eq_getElem?_getD]
    cases l with
    | bol => exact absurd rfl hbol
    | eol => exact absurd rfl heol
    | _ =>
      unfold Leaf.step
      dsimp only
      rw [List.getElem?_eq_getElem (Nat.lt_of_not_le hi)]
      rfl

theorem step_cases (l : Leaf) {i j : Nat} (h : Leaf.step text l i = some j) :
    (j = i ∧ i ≤ text.length) ∨ (j = i + 1 ∧ i < text.length) := by
  by_cases hbol : l = .bol
  · rw [hbol, step_bol] at h
    split at h
    · next hi => exact .inl ⟨(Option.some.inj h).symm, by omega⟩
    · cases h
  · by_cases heol : l = .eol
    · rw [heol, step_eol] at h
      split at h
      · next hi => exact .inl ⟨(Option.some.inj h).symm, Nat.le_of_eq hi⟩
      · cases h
    · rw [step_reader hbol heol] at h
      split at h
      · cases h
      · next hi =>
        split at h
        · exact .inr ⟨(Option.some.inj h).symm, Nat.lt_of_not_le hi⟩
        · cases h

theorem step_bounded (text : Text) : Lib.Backtrack.Bounded (Leaf.step text) text.length := by
  intro l i j h
  rcases step_cases l h with ⟨rfl, hi⟩ | ⟨rfl, hi⟩
  · exact ⟨Nat.le_refl j, hi⟩
  · exact ⟨Nat.le_succ i, hi⟩

theorem step_width {l : Leaf} {i j : Nat} (h : Leaf.step text l i = some j) : j ≤ i + 1 := by
  rcases step_cases l h with ⟨rfl, -⟩ | ⟨rfl, -⟩ <;> omega

/-- From where to where the matcher reads a leaf: a class by its text. -/
def Leaf.run (text : Text) (l : Leaf) (i : Nat) : Option Nat :=
  match l with
  | .cls neg items =>
    if text.length ≤ i then none else matchClass (Leaf.cls neg items).render text i
  | l => l.step text i

/-- A clear class is read as it is meant. -/
theorem matchClass_cls {neg : Bool} {items : List ClassItem} (h : (Leaf.cls neg items).WF)
    (hclear : (Leaf.cls neg items).Clear) (ti : Nat) :
    matchClass (Leaf.cls neg items).render text ti =
      if (Leaf.cls neg items).reads (text.getD ti nul) then some (ti + 1) else none := by
  obtain ⟨hne, hhat, hitems⟩ := h
  have hinner : ((Leaf.cls neg items).render.take ((Leaf.cls neg items).render.length - 1)).drop 1 =
      (if neg then ['^'] else []) ++ renderItems items := by
    change (('[' :: _).take (('[' :: _).length - 1)).drop 1 = _
    generalize (if neg then ['^'] else []) ++ renderItems items = w
    rw [List.length_cons, Nat.add_sub_cancel, List.length_append, List.length_singleton,
      List.take_succ_cons, List.drop_succ_cons, List.drop_zero, List.take_left]
  have hreads : (Leaf.cls neg items).reads (text.getD ti nul) =
      (classHit (text.getD ti nul) 0 none (renderItems items) != neg) := by
    rw [classHit_items _ hitems hclear nofun]
    rfl
  rw [hreads]
  unfold matchClass
  dsimp only
  rw [hinner]
  cases neg with
  | true =>
    change (if classHit _ 0 none (renderItems items) = true then none else some (ti + 1)) = _
    cases classHit (text.getD ti nul) 0 none (renderItems items) <;> rfl
  | false =>
    have hhead := renderItems_head hne (hhat rfl) hitems []
    rw [List.append_nil] at hhead
    rw [if_neg Bool.false_ne_true, List.nil_append, decide_eq_false hhead,
      if_neg Bool.false_ne_true]
    cases classHit (text.getD ti nul) 0 none (renderItems items) <;> rfl

/-- Any leaf but a class is read as it is meant. -/
theorem run_other {l : Leaf} (h : ∀ neg items, l ≠ .cls neg items) (i : Nat) :
    Leaf.run text l i = Leaf.step text l i := by
  cases l with
  | cls neg items => exact absurd rfl (h neg items)
  | _ => rfl

/-- **A leaf is read as it is meant**, if it is clear or no character is left. -/
theorem run_clear {l : Leaf} {i : Nat} (h : l.WF ∧ l.ClearAt text i) :
    Leaf.run text l i = Leaf.step text l i := by
  cases l with
  | cls neg items =>
    rw [step_reader (by simp) (by simp), Leaf.run]
    split
    · rfl
    · next hi => exact matchClass_cls h.1 (h.2 (Nat.lt_of_not_le hi)) i
  | _ => rfl

/-- **A leaf is matched as the matcher reads it.** -/
theorem matchAtomOnce_leaf (fuel : Nat) {l : Leaf} (h : l.WF) (ti : Nat) :
    matchAtomOnce (fuel + 1) l.render text ti = Leaf.run text l ti := by
  rw [matchAtomOnce]
  cases l with
  | bol =>
    rw [run_other (by simp), step_bol]
    rfl
  | eol =>
    rw [run_other (by simp), step_eol]
    rfl
  | cls neg items => rfl
  | char c =>
    obtain ⟨h1, h2, h3, h4, -, -, -, -, -, h10, h11⟩ := isSpecial_eq_false h
    rw [run_other (by simp), step_reader (by simp) (by simp)]
    change (if c = '^' then _ else if c = '$' then _ else if _ then none else
      if c = '.' then _ else if c = '\\' then _ else if c = '[' then _ else
      if c = '(' then _ else _) = _
    rw [if_neg h3, if_neg h4, if_neg h2, if_neg h1, if_neg h10, if_neg h11]
    unfold Leaf.reads
    simp only [ge_iff_le, decide_eq_true_eq]
    rfl
  | esc e =>
    rw [run_other (by simp), step_reader (by simp) (by simp)]
    change (if _ then none else if escapeHit e _ then _ else none) = _
    rfl
  | any =>
    rw [run_other (by simp), step_reader (by simp) (by simp)]
    change (if _ then none else if text.getD ti nul = '\n' then none else _) = _
    unfold Leaf.reads
    simp only [ge_iff_le, ne_eq, decide_not, Bool.not_eq_true', decide_eq_false_iff_not, ite_not]

/-- A group is refused at the end of the text, and left with the first success. -/
theorem matchAtomOnce_group (fuel : Nat) {atom : Text} {close ti : Nat}
    (hopen : atom.headD nul = '(') (hclose : findClose atom = some close) :
    matchAtomOnce (fuel + 1) atom text ti = if text.length ≤ ti then none
      else (splitTop ((atom.take close).drop 1)).findSome? fun b => matchSeq fuel b text ti := by
  rw [matchAtomOnce, hopen, hclose]
  rfl

/-! ## Trees -/

theorem renderAtom_length (a : Atom Leaf) : 1 ≤ (renderAtom a).length := by
  cases a with
  | leaf l => cases l <;> exact Nat.succ_le_succ (Nat.zero_le _)
  | group alts => exact Nat.succ_le_succ (Nat.zero_le _)

theorem renderRep_length (r : Rep) (h : r ≠ .one) : (renderRep r).length = 1 := by
  cases r with
  | one => exact absurd rfl h
  | _ => rfl

/-- The alternatives are tried in order. -/
theorem alts_first (alts : Pattern) (i : Nat) : alts.first (Leaf.run text) text.length i =
    (Branches alts).findSome? fun s => s.first (Leaf.run text) text.length i := by
  cases alts with
  | last s =>
    rw [Branches, Alts.first, List.findSome?_cons]
    cases s.first (Leaf.run text) text.length i <;> rfl
  | or s alts =>
    rw [Branches, Alts.first, alts_first alts i, List.findSome?_cons]
    cases s.first (Leaf.run text) text.length i <;> rfl

/-- What holds of the alternatives holds of each branch. -/
theorem branches_spec (alts : Pattern) (h : AltsWF alts) :
    ∀ s ∈ Branches alts, SeqWF s ∧ (renderSeq s).length ≤ (renderAlts alts).length := by
  cases alts with
  | last s =>
    intro s' hs'
    rw [List.mem_singleton.mp hs']
    exact ⟨h.2, Nat.le_refl _⟩
  | or s alts =>
    intro s' hs'
    rw [renderAlts, List.length_append, List.length_cons]
    rcases List.mem_cons.mp hs' with rfl | hs'
    · exact ⟨h.2.1, by omega⟩
    · obtain ⟨hwf, hlen⟩ := branches_spec alts h.2.2 s' hs'
      exact ⟨hwf, by omega⟩

theorem findSome_congr {α β : Type} {f g : α → Option β} {l : List α}
    (h : ∀ x ∈ l, f x = g x) : l.findSome? f = l.findSome? g := by
  induction l with
  | nil => rfl
  | cons x l ih =>
    rw [List.findSome?_cons, List.findSome?_cons, h x List.mem_cons_self,
      ih fun y hy => h y (List.mem_cons_of_mem _ hy)]

/-- The matcher on the texts of trees, with enough fuel. -/
structure Matches (text : Text) (fuel : Nat) : Prop where
  seq : ∀ s, SeqWF s → (renderSeq s).length < fuel → ∀ ti,
    matchSeq fuel (renderSeq s) text ti = s.first (Leaf.run text) text.length ti
  star : ∀ a s, AtomWF a → SeqWF s →
    (renderAtom a).length + (renderSeq s).length < fuel → ∀ ti,
      matchStar fuel (renderAtom a) (renderSeq s) text ti =
        (chain (a.once (Leaf.run text) text.length) (text.length + 1) ti).reverse.findSome?
          (s.first (Leaf.run text) text.length)
  once : ∀ a, AtomWF a → (renderAtom a).length ≤ fuel → ∀ ti,
    matchAtomOnce fuel (renderAtom a) text ti = a.once (Leaf.run text) text.length ti

section
variable {text : Text} {fuel : Nat} (ih : Matches text fuel)
include ih

/-- One more call matches an atom with its repetition, and what follows it. -/
theorem Matches.seq_cons {a : Atom Leaf} {r : Rep} {s : Seq Leaf} (hwf : SeqWF (.cons a r s))
    (hlen : (renderSeq (.cons a r s)).length < fuel + 1) (ti : Nat) :
    matchSeq (fuel + 1) (renderSeq (.cons a r s)) text ti =
      (Seq.cons a r s).first (Leaf.run text) text.length ti := by
  obtain ⟨hrep, hbehind⟩ := behind_atom a r s hwf.2
  have hparse := parseAtomEnd_atom a hwf.1 (renderRep r ++ renderSeq s)
  have hne := (renderAtom_head a hwf.1 (renderRep r ++ renderSeq s)).1
  have htake : (renderSeq (.cons a r s)).take (renderAtom a).length = renderAtom a := by
    rw [renderSeq, List.take_left]
  have hpos := renderAtom_length a
  rw [renderSeq, List.length_append, List.length_append] at hlen
  have honce := ih.once a hwf.1 (by omega)
  have hseq : (fun m => matchSeq fuel (renderSeq s) text m) =
      s.first (Leaf.run text) text.length :=
    funext (ih.seq s hwf.2 (by omega))
  rw [← renderSeq.eq_2] at hparse hne
  rw [matchSeq, if_neg hne, hparse]
  dsimp only
  rw [hrep, htake, hbehind, Seq.first]
  cases r with
  | one =>
    dsimp only
    rw [honce, hseq]
    rfl
  | opt =>
    dsimp only
    rw [honce, hseq, ih.seq s hwf.2 (by omega)]
    rfl
  | star =>
    rw [renderRep_length .star (by decide)] at hlen
    exact ih.star a s hwf.1 hwf.2 (by omega) ti
  | plus =>
    rw [renderRep_length .plus (by decide)] at hlen
    dsimp only
    rw [honce, show (fun m => matchStar fuel (renderAtom a) (renderSeq s) text m) = _ from
      funext (ih.star a s hwf.1 hwf.2 (by omega))]
    rfl

/-- One more call matches a group. -/
theorem Matches.group {alts : Pattern} (ha : AtomWF (.group alts))
    (hlen : (renderAtom (.group alts)).length ≤ fuel + 1) (ti : Nat) :
    matchAtomOnce (fuel + 1) (renderAtom (.group alts)) text ti =
      (Atom.group alts).once (Leaf.run text) text.length ti := by
  have hclose : findClose (renderAtom (.group alts)) = some ((renderAlts alts).length + 1) :=
    findClose_group alts ha []
  have hinner : ((renderAtom (.group alts)).take ((renderAlts alts).length + 1)).drop 1 =
      renderAlts alts := by
    rw [renderAtom, List.take_succ_cons, List.drop_succ_cons, List.drop_zero, List.take_left]
  rw [renderAtom, List.length_cons, List.length_append, List.length_singleton] at hlen
  rw [matchAtomOnce_group fuel rfl hclose, hinner, splitTop_alts alts ha, List.findSome?_map,
    Atom.once, alts_first]
  have hfind : ((Branches alts).findSome? fun s => matchSeq fuel (renderSeq s) text ti) =
      (Branches alts).findSome? fun s => s.first (Leaf.run text) text.length ti := by
    refine findSome_congr fun s hs => ?_
    obtain ⟨hwf, hle⟩ := branches_spec alts ha s hs
    exact ih.seq s hwf (by omega) ti
  exact congrArg (fun m => if text.length ≤ ti then none else m) hfind

end

/-- **The matcher on the text of a tree is committed backtracking on the tree.** -/
theorem matches_render (text : Text) (fuel : Nat) : Matches text fuel := by
  induction fuel with
  | zero =>
    refine ⟨fun s _ h => absurd h (Nat.not_lt_zero _),
      fun a s _ _ h => absurd h (Nat.not_lt_zero _), fun a _ h => ?_⟩
    have := renderAtom_length a
    omega
  | succ fuel ih =>
    refine ⟨fun s hwf hlen ti => ?_, fun a s ha hs hlen ti => ?_, fun a ha hlen ti => ?_⟩
    · cases s with
      | nil => rfl
      | cons a r s => exact ih.seq_cons hwf hlen ti
    · have hpos := renderAtom_length a
      have honce : (fun cur => matchAtomOnce fuel (renderAtom a) text cur) =
          a.once (Leaf.run text) text.length :=
        funext (ih.once a ha (by omega))
      have hseq : (fun m => matchSeq fuel (renderSeq s) text m) =
          s.first (Leaf.run text) text.length :=
        funext (ih.seq s hs (by omega))
      rw [matchStar, honce, hseq]
    · cases a with
      | leaf l => exact matchAtomOnce_leaf fuel ha ti
      | group alts => exact ih.group ha hlen ti

/-! ## The language -/

theorem alts_ends (r : Pattern) (i j : Nat) : r.Ends (Leaf.step text) i j ↔
    ∃ s ∈ Branches r, s.Ends (Leaf.step text) i j := by
  cases r with
  | last s => exact ⟨fun h => ⟨s, List.mem_singleton_self s, h⟩,
      fun ⟨s', hs', h⟩ => List.mem_singleton.mp hs' ▸ h⟩
  | or s alts =>
    rw [Branches, List.exists_mem_cons_iff, ← alts_ends alts i j]
    rfl

/-- A pattern matches where a branch of its tree is covered. -/
theorem regexMatch_branches {r : Pattern} (hvalid : regexValid (renderAlts r) = true)
    (hwf : AltsWF r) : regexMatch (renderAlts r) text = true ↔
      ∃ s ∈ Branches r, s.first (Leaf.run text) text.length 0 = some text.length := by
  unfold regexMatch
  rw [hvalid, if_neg nofun, splitTop_alts r hwf, List.any_map, List.any_eq_true]
  refine exists_congr fun s => and_congr_right fun hs => ?_
  obtain ⟨hswf, hlen⟩ := branches_spec r hwf s hs
  rw [Function.comp_apply, decide_eq_true_eq,
    (matches_render text _).seq s hswf (Nat.lt_succ_of_le hlen) 0]

/-! ### The leaves of a tree are written -/

section
variable {step : Leaf → Nat → Option Nat} {stop : Nat} {P : Leaf → Nat → Prop}

mutual

theorem Atom.tries_wf (a : Atom Leaf) (h : AtomWF a) {S : Nat → Prop} (ht : a.Tries step stop P S) :
    a.Tries step stop (fun l i => l.WF ∧ P l i) S := by
  cases a with
  | leaf l => exact fun i hi => ⟨h, ht i hi⟩
  | group alts => exact Alts.tries_wf alts h ht

theorem Seq.tries_wf (s : Seq Leaf) (h : SeqWF s) {S : Nat → Prop} (ht : s.Tries step stop P S) :
    s.Tries step stop (fun l i => l.WF ∧ P l i) S := by
  cases s with
  | nil => trivial
  | cons a r s => exact ⟨Atom.tries_wf a h.1 ht.1, Seq.tries_wf s h.2 ht.2⟩

theorem Alts.tries_wf (alts : Pattern) (h : AltsWF alts) {S : Nat → Prop}
    (ht : alts.Tries step stop P S) : alts.Tries step stop (fun l i => l.WF ∧ P l i) S := by
  cases alts with
  | last s => exact Seq.tries_wf s h.2 ht
  | or s alts => exact ⟨Seq.tries_wf s h.2.1 ht.1, Alts.tries_wf alts h.2.2 ht.2⟩

end

mutual

theorem Atom.visits_wf (a : Atom Leaf) (h : AtomWF a) {S : Nat → Prop} (hv : a.Visits step P S) :
    a.Visits step (fun l i => l.WF ∧ P l i) S := by
  cases a with
  | leaf l => exact fun i hi => ⟨h, hv i hi⟩
  | group alts => exact Alts.visits_wf alts h hv

theorem Seq.visits_wf (s : Seq Leaf) (h : SeqWF s) {S : Nat → Prop} (hv : s.Visits step P S) :
    s.Visits step (fun l i => l.WF ∧ P l i) S := by
  cases s with
  | nil => trivial
  | cons a r s => exact ⟨Atom.visits_wf a h.1 hv.1, Seq.visits_wf s h.2 hv.2⟩

theorem Alts.visits_wf (alts : Pattern) (h : AltsWF alts) {S : Nat → Prop}
    (hv : alts.Visits step P S) : alts.Visits step (fun l i => l.WF ∧ P l i) S := by
  cases alts with
  | last s => exact Seq.visits_wf s h.2 hv
  | or s alts => exact ⟨Seq.visits_wf s h.2.1 hv.1, Alts.visits_wf alts h.2.2 hv.2⟩

end

end

/-- **`regexMatch` decides the language of a pattern where it is direct**: a text of the language is
one of a branch in which a group that is tried has at most one end, and none at the end of the text,
which has one end itself or no group that crosses, and in which the classes that are tried are
clear; of another text, the classes that can be reached are. -/
theorem regexMatch_iff (pat text : Text) (hvalid : regexValid pat = true)
    (hdirect : Direct pat text) : regexMatch pat text = true ↔ InLanguage pat text := by
  constructor
  · intro h
    obtain ⟨r, hr⟩ := regexValid_denotes hvalid
    obtain ⟨hwf, rfl⟩ := hr
    refine ⟨r, ⟨hwf, rfl⟩, by_contra fun hlang => ?_⟩
    obtain ⟨s, hs, hfirst⟩ := (regexMatch_branches hvalid hwf).mp h
    have hvisits := Seq.visits_wf s (branches_spec r hwf s hs).1
      ((hdirect r ⟨hwf, rfl⟩).2 hlang s hs)
    have hends := Seq.ends_of_visits (fun _ _ => run_clear) s hvisits rfl (Seq.first_sound s hfirst)
    exact hlang ((alts_ends r 0 text.length).mpr ⟨s, hs, hends⟩)
  · rintro ⟨r, ⟨hwf, rfl⟩, hlang⟩
    obtain ⟨s, hs, hends, hd, htries⟩ := (hdirect r ⟨hwf, rfl⟩).1 hlang
    refine (regexMatch_branches hvalid hwf).mpr ⟨s, hs, ?_⟩
    rw [Seq.first_congr (step_bounded text) (fun _ _ => run_clear) s (fun _ => id) hd.1
      (Seq.tries_wf s (branches_spec r hwf s hs).1 htries) rfl]
    exact (Seq.first_stop (step_bounded text) (fun _ _ _ => step_width) s hd rfl
      (Nat.zero_le _)).mpr hends

/-- `(ab|cd)e` matches `cde`: the group has one end where it is tried. -/
theorem regexMatch_iff_cde :
    let pat := ['(', 'a', 'b', '|', 'c', 'd', ')', 'e']
    regexValid pat = true ∧ Direct pat ['c', 'd', 'e'] ∧
      (regexMatch pat ['c', 'd', 'e'] = true ↔ InLanguage pat ['c', 'd', 'e']) := by
  have hvalid : regexValid ['(', 'a', 'b', '|', 'c', 'd', ')', 'e'] = true := by decide
  let lit := fun (c : Char) (s : Seq Leaf) => Seq.cons (.leaf (.char c)) .one s
  let alts : Pattern := .or (lit 'a' (lit 'b' .nil)) (.last (lit 'c' (lit 'd' .nil)))
  let branch : Seq Leaf := .cons (.group alts) .one (lit 'e' .nil)
  have hr : Denotes ['(', 'a', 'b', '|', 'c', 'd', ')', 'e'] (.last branch) :=
    ⟨by simp [AltsWF, SeqWF, AtomWF, branch, alts, lit, Leaf.WF]; decide, rfl⟩
  have hlang : Language (.last branch) ['c', 'd', 'e'] :=
    ⟨2, .inr ⟨1, rfl, 2, rfl, rfl⟩, 3, rfl, rfl⟩
  have hends : ∀ j, alts.Ends (Leaf.step ['c', 'd', 'e']) 0 j → j = 2 := by
    rintro j (⟨m, hm, -⟩ | ⟨m, hm, m', hm', rfl⟩)
    · exact absurd (show (none : Option Nat) = some m from hm) nofun
    · obtain rfl : 1 = m := Option.some.inj hm
      exact (Option.some.inj hm').symm
  have hdirect : Direct ['(', 'a', 'b', '|', 'c', 'd', ')', 'e'] ['c', 'd', 'e'] := by
    intro r' hr'
    obtain rfl := denotes_unique hr hr'
    refine ⟨fun _ => ⟨branch, List.mem_singleton_self _, hlang, ⟨?_, .inl ?_⟩, ?_⟩,
      fun hno => absurd hlang hno⟩
    · refine ⟨⟨fun i j hi _ => ?_, fun i j j' hi h h' => ?_, ?_⟩, trivial, trivial⟩
      · exact (show i = 0 from hi) ▸ by decide
      · obtain rfl : i = 0 := hi
        exact (hends j h).trans (hends j' h').symm
      · exact ⟨⟨trivial, trivial, trivial⟩, trivial, trivial, trivial⟩
    · refine ⟨fun i i' j j' hi hi' hlt => ?_, trivial, trivial⟩
      exact absurd hlt (by rw [show i = 0 from hi, show i' = 0 from hi']; decide)
    · -- there is no class
      simp [branch, alts, lit, Seq.Tries, Atom.Tries, Alts.Tries, Leaf.ClearAt, Leaf.Clear]
  exact ⟨hvalid, hdirect, regexMatch_iff _ _ hvalid hdirect⟩

/-- In `abc|[a-c-e]` the class is not tried on `abc`. -/
example : Direct ['a', 'b', 'c', '|', '[', 'a', '-', 'c', '-', 'e', ']'] ['a', 'b', 'c'] := by
  let lit := fun (c : Char) (s : Seq Leaf) => Seq.cons (.leaf (.char c)) .one s
  let branch := lit 'a' (lit 'b' (lit 'c' .nil))
  let items : List ClassItem := [.char 'a', .upTo 'a' 'c', .char '-', .char 'e']
  have hr : Denotes ['a', 'b', 'c', '|', '[', 'a', '-', 'c', '-', 'e', ']']
      (.or branch (.last (.cons (.leaf (.cls false items)) .one .nil))) :=
    ⟨by simp [AltsWF, SeqWF, AtomWF, branch, items, lit, Leaf.WF, Items]; decide, rfl⟩
  have hends : branch.Ends (Leaf.step ['a', 'b', 'c']) 0 3 := ⟨1, rfl, 2, rfl, 3, rfl, rfl⟩
  intro r' hr'
  obtain rfl := denotes_unique hr hr'
  refine ⟨fun _ => ⟨branch, List.mem_cons_self, hends, ⟨?_, .inl ?_⟩, ?_⟩,
    fun hno => absurd (.inl hends) hno⟩
  · exact ⟨trivial, trivial, trivial, trivial⟩
  · exact ⟨trivial, trivial, trivial, trivial⟩
  · simp [branch, lit, Seq.Tries, Atom.Tries, Leaf.ClearAt, Leaf.Clear]
/-- `(a|ab)c` does not match `abc`: the group is left behind `a`. -/
theorem regexMatch_group :
    let pat := ['(', 'a', '|', 'a', 'b', ')', 'c']
    regexValid pat = true ∧
      ¬ (regexMatch pat ['a', 'b', 'c'] = true ↔ InLanguage pat ['a', 'b', 'c']) := by
  let lit := fun (c : Char) (s : Seq Leaf) => Seq.cons (.leaf (.char c)) .one s
  let alts : Pattern := .or (lit 'a' .nil) (.last (lit 'a' (lit 'b' .nil)))
  have hr : Denotes ['(', 'a', '|', 'a', 'b', ')', 'c']
      (.last (.cons (.group alts) .one (lit 'c' .nil))) :=
    ⟨by simp [AltsWF, SeqWF, AtomWF, alts, lit, Leaf.WF]; decide, rfl⟩
  have hlang : Language (.last (.cons (.group alts) .one (lit 'c' .nil))) ['a', 'b', 'c'] :=
    ⟨2, .inr ⟨1, rfl, 2, rfl, rfl⟩, 3, rfl, rfl⟩
  have hno : regexMatch ['(', 'a', '|', 'a', 'b', ')', 'c'] ['a', 'b', 'c'] = false := by decide
  exact ⟨by decide, fun h => Bool.false_ne_true (hno.symm.trans (h.mpr ⟨_, hr, hlang⟩))⟩

end Regex
