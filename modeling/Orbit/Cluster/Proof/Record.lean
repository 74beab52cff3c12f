import Mathlib
import Orbit.Cluster.Proof.Text

/-!
# Reads and edits of the state file are reads and edits of its record

`Record.nodeInt_port`, `Record.nodeInt_pid`, `Record.nodeCount` and `Record.drainingContains` say
what the searches of `cluster.orb` read off the text of a record; `Record.render_setPid` and
`Record.render_addDraining` that its two edits write the text of the edited record.
-/

namespace Cluster

open Lib.Find
open Lib.Text (chars intToString)

namespace Record

def setPid (r : Record) (j q : Nat) : Record :=
  { r with nodes := r.nodes.modify j fun n => (n.1, q) }

def addDraining (r : Record) (j : Nat) : Record :=
  if j ∈ r.draining then r else { r with draining := r.draining ++ [j] }

section Nodes
variable (r : Record) {j : Nat}

theorem split_at (h : j < r.nodes.length) :
    ∃ xs n ys, r.nodes = xs ++ n :: ys ∧ xs.length = j ∧ r.nodes[j]? = some n := by
  refine ⟨r.nodes.take j, r.nodes[j], r.nodes.drop (j + 1), ?_, ?_, ?_⟩
  · rw [List.getElem_cons_drop, List.take_append_drop]
  · rw [List.length_take, Nat.min_eq_left h.le]
  · exact List.getElem?_eq_getElem h

/-- An id under which something is read is that of a node. -/
theorem exists_of_nodeInt {id : Int} {key : Text} (h : clusterNodeInt r.render id key ≠ -1) :
    ∃ j n, id = (j : Nat) ∧ r.nodes[j]? = some n := by
  by_cases hid : id < 0 ∨ (r.nodes.length : Int) ≤ id
  · rw [clusterNodeInt, r.absent hid] at h
    exact absurd rfl h
  · obtain ⟨j, rfl⟩ := Int.eq_ofNat_of_zero_le (by omega : 0 ≤ id)
    exact ⟨j, r.nodes[j], rfl, List.getElem?_eq_getElem (by omega)⟩

theorem nodeInt_port {n : Nat × Nat} (h : r.nodes[j]? = some n) :
    clusterNodeInt r.render j (chars "port") = n.1 := by
  obtain ⟨hj, -⟩ := List.getElem?_eq_some_iff.mp h
  obtain ⟨xs, m, ys, hsplit, rfl, hm⟩ := r.split_at hj
  rw [hm, Option.some.injEq] at h
  rw [← h]
  exact (r.located hsplit).nodeInt_port

theorem nodeInt_pid {n : Nat × Nat} (h : r.nodes[j]? = some n) :
    clusterNodeInt r.render j (chars "pid") = n.2 := by
  obtain ⟨hj, -⟩ := List.getElem?_eq_some_iff.mp h
  obtain ⟨xs, m, ys, hsplit, rfl, hm⟩ := r.split_at hj
  rw [hm, Option.some.injEq] at h
  rw [← h]
  exact (r.located hsplit).nodeInt_pid

theorem render_setPid (h : j < r.nodes.length) (q : Nat) :
    clusterSetNodePid r.render j q = (r.setPid j q).render := by
  obtain ⟨xs, n, ys, hsplit, rfl, -⟩ := r.split_at h
  have hset : (r.setPid xs.length q).nodes = xs ++ (n.1, q) :: ys := by
    simp [setPid, hsplit, List.modify_eq_take_cons_drop]
  rw [(r.located hsplit).setNodePid]
  exact ((r.setPid xs.length q).located hset).text.symm

theorem found_iff : (indexOf (idNeedle j) r.render).isNone = true ↔ r.nodes.length ≤ j := by
  constructor
  · intro h
    by_contra hj
    obtain ⟨xs, n, ys, hsplit, rfl, -⟩ := r.split_at (Nat.lt_of_not_le hj)
    rw [(r.located hsplit).found] at h
    cases h
  · intro h
    rw [r.absent (.inr (by omega))]
    rfl

/-- The ids are counted up to the first that is missing. -/
theorem nodeCount_go (fuel k : Nat) (hk : k ≤ r.nodes.length)
    (hfuel : r.nodes.length ≤ k + fuel) : clusterNodeCount.go r.render fuel k = r.nodes.length := by
  induction fuel generalizing k with
  | zero =>
    rw [clusterNodeCount.go]
    omega
  | succ fuel ih =>
    rw [clusterNodeCount.go]
    by_cases hlast : r.nodes.length ≤ k
    · rw [if_pos (r.found_iff.mpr hlast)]
      omega
    · rw [if_neg (mt r.found_iff.mp hlast)]
      exact ih (k + 1) (by omega) (by omega)

theorem nodeCount (h : r.nodes.length ≤ 1024) : clusterNodeCount r.render = r.nodes.length :=
  r.nodeCount_go 1024 0 (Nat.zero_le _) (by omega)

end Nodes

end Record

/-! ## Numbers in a list -/

/-- `want` stands at position `p` of `sub` as a whole number. -/
def WholeAt (sub want : Text) (p : Nat) : Prop :=
  want <+: sub.drop p ∧ (p = 0 ∨ isBefore (sub.getD (p - 1) ' ') = true) ∧
    (sub.length ≤ p + want.length ∨ isAfter (sub.getD (p + want.length) ' ') = true)

theorem listsNumber_go {sub want : Text} (hw : want ≠ []) (fuel start : Nat)
    (hfuel : sub.length ≤ start + fuel) :
    listsNumber.go sub want fuel start = true ↔ ∃ p, start ≤ p ∧ WholeAt sub want p := by
  have hlt : ∀ {p}, WholeAt sub want p → p < sub.length := by
    intro p h
    by_contra hp
    rw [WholeAt, List.drop_eq_nil_of_le (Nat.le_of_not_lt hp)] at h
    exact hw (List.prefix_nil.mp h.1)
  induction fuel generalizing start with
  | zero =>
    simp only [listsNumber.go, Bool.false_eq_true, false_iff, not_exists, not_and]
    intro p hp h
    have := hlt h
    omega
  | succ fuel ih =>
    rw [listsNumber.go]
    by_cases hend : sub.length ≤ start
    · rw [clusterIndexOfFrom, if_pos hend]
      simp only [Bool.false_eq_true, false_iff, not_exists, not_and]
      intro p hp h
      have := hlt h
      omega
    · rw [clusterIndexOfFrom, if_neg hend]
      cases hi : indexOf want (sub.drop start) with
      | none =>
        simp only [Option.map_none, Bool.false_eq_true, false_iff, not_exists, not_and]
        intro p hp h
        have hno := indexOf_none hi (p - start) (by
          have := hlt h
          rw [List.length_drop]
          omega)
        rw [List.drop_drop, show start + (p - start) = p by omega] at hno
        exact hno h.1
      | some m =>
        obtain ⟨hm, hfirst⟩ := indexOf_some hi
        rw [List.drop_drop] at hm
        simp only [Option.map_some]
        have hiff : ((start + m == 0 || isBefore (sub.getD (start + m - 1) ' ')) &&
            (decide (sub.length ≤ start + m + want.length) ||
              isAfter (sub.getD (start + m + want.length) ' '))) = true ↔
            WholeAt sub want (start + m) := by
          simp only [Bool.and_eq_true, Bool.or_eq_true, beq_iff_eq, decide_eq_true_eq, WholeAt, hm,
            true_and]
        by_cases hwhole : WholeAt sub want (start + m)
        · rw [if_pos (hiff.mpr hwhole)]
          simp only [true_iff]
          exact ⟨start + m, Nat.le_add_right _ _, hwhole⟩
        · have hrec := ih (start + m + 1) (by omega)
          rw [if_neg (mt hiff.mp hwhole)]
          refine hrec.trans (exists_congr fun p => and_congr_left fun hp => ?_)
          refine ⟨by omega, fun hle => ?_⟩
          by_contra hlate
          have hcase : p < start + m ∨ p = start + m := by omega
          rcases hcase with hlt' | rfl
          · refine hfirst (p - start) (by omega) ?_
            rw [List.drop_drop, show start + (p - start) = p by omega]
            exact hp.1
          · exact hwhole hp

theorem listsNumber_iff {sub want : Text} (hw : want ≠ []) :
    listsNumber sub want = true ↔ ∃ p, WholeAt sub want p := by
  rw [listsNumber, listsNumber_go hw _ _ (by omega)]
  simp only [Nat.zero_le, true_and]

/-- The first number of a list is found as a whole. -/
theorem whole_first {d j : Nat} {t : Text} (ht : ∀ c ∈ t.head?, isDigit c = false)
    (hafter : ∀ c ∈ t.head?, isAfter c = true) :
    WholeAt (dec d ++ t) (dec j) 0 ↔ j = d := by
  constructor
  · rintro ⟨hp, -, hend⟩
    rw [List.drop_zero] at hp
    rw [Nat.zero_add] at hend
    have hle : (dec j).length ≤ (dec d).length := by
      by_contra hlt
      obtain ⟨u, hu⟩ := hp
      cases t with
      | nil =>
        have := congrArg List.length hu
        simp only [List.length_append, List.length_nil] at this
        omega
      | cons c t =>
        have hc : (dec j ++ u)[(dec d).length]? = some c := by
          rw [hu, List.getElem?_append_right (Nat.le_refl _)]
          simp
        rw [List.getElem?_append_left (Nat.lt_of_not_le hlt)] at hc
        have := isDigit_of_mem_dec (List.mem_of_getElem? hc)
        rw [ht c (by simp)] at this
        cases this
    have hpre : dec j <+: dec d := List.prefix_of_prefix_length_le hp (List.prefix_append _ _) hle
    by_cases hlen : (dec j).length = (dec d).length
    · exact dec_inj (hpre.eq_of_length hlen)
    · have hlt : (dec j).length < (dec d).length := Nat.lt_of_le_of_ne hle hlen
      exfalso
      rcases hend with hend | hend
      · rw [List.length_append] at hend
        omega
      · rw [List.getD_append _ _ _ _ hlt, List.getD_eq_getElem _ _ hlt] at hend
        have := isDigit_of_mem_dec (List.getElem_mem hlt)
        revert hend this
        generalize (dec d)[(dec j).length] = c
        simp only [isAfter, isDigit, Bool.or_eq_true, beq_iff_eq, Bool.and_eq_true,
          decide_eq_true_eq]
        rintro ((rfl | rfl) | rfl) <;> decide
  · rintro rfl
    refine ⟨by simp, .inl rfl, ?_⟩
    cases t with
    | nil => simp
    | cons c t => simpa using hafter c

/-- A number does not start within another. -/
theorem not_whole_inside {d p : Nat} {tail : Text} (h0 : 0 < p) (hp : p ≤ (dec d).length) :
    ¬ (p = 0 ∨ isBefore ((dec d ++ tail).getD (p - 1) ' ') = true) := by
  have hlt : p - 1 < (dec d).length := by omega
  rw [List.getD_append _ _ _ _ hlt, List.getD_eq_getElem _ _ hlt]
  have := isDigit_of_mem_dec (List.getElem_mem hlt)
  revert this
  generalize (dec d)[p - 1] = c
  simp only [isBefore, isDigit, Bool.or_eq_true, beq_iff_eq, Bool.and_eq_true, decide_eq_true_eq]
  rintro h (h' | h')
  · omega
  · revert h
    rcases h' with (rfl | rfl) | rfl <;> decide

/-- After a blank a list is searched as from its start. -/
theorem whole_shift {u rest want : Text} (p : Nat) :
    WholeAt (u ++ ' ' :: rest) want (u.length + 1 + p) ↔ WholeAt rest want p := by
  have hsplit : u ++ ' ' :: rest = (u ++ [' ']) ++ rest := by simp
  have hlen : u.length + 1 = (u ++ [' ']).length := by simp
  have hbefore : (u.length + 1 + p = 0 ∨
      isBefore ((u ++ ' ' :: rest).getD (u.length + 1 + p - 1) ' ') = true) ↔
      (p = 0 ∨ isBefore (rest.getD (p - 1) ' ') = true) := by
    cases p with
    | zero => simp [isBefore]
    | succ p =>
      have hpos : u.length + 1 + (p + 1) - 1 = (u ++ [' ']).length + p := by
        rw [← hlen]
        omega
      rw [hpos, hsplit, List.getD_append_right _ _ _ _ (Nat.le_add_right _ _)]
      simp
  have hafter : (u ++ ' ' :: rest).getD (u.length + 1 + p + want.length) ' ' =
      rest.getD (p + want.length) ' ' := by
    rw [hsplit, hlen, List.getD_append_right _ _ _ _ (by omega)]
    congr 1
    omega
  rw [WholeAt, WholeAt, hbefore, hafter]
  refine and_congr ?_ (and_congr Iff.rfl (or_congr ?_ Iff.rfl))
  · rw [hsplit, hlen, List.drop_length_add_append]
  · rw [hsplit, List.length_append, hlen]
    omega

theorem drainingText_cons (d e : Nat) (ds : List Nat) :
    drainingText (d :: e :: ds) = dec d ++ ',' :: ' ' :: drainingText (e :: ds) := by
  simp [drainingText, commaList, show chars ", " = [',', ' '] by unfold chars; decide]

theorem not_prefix_of_not_digit {j : Nat} {c : Char} {t : Text} (hc : isDigit c = false) :
    ¬ dec j <+: c :: t := by
  obtain ⟨x, xs, hx⟩ := List.exists_cons_of_ne_nil (dec_ne_nil j)
  intro h
  rw [hx] at h
  have := isDigit_of_mem_dec (c := x) (n := j) (hx ▸ List.mem_cons_self)
  rw [(List.cons_prefix_cons.mp h).1, hc] at this
  cases this

theorem whole_drainingText (j : Nat) (ds : List Nat) :
    (∃ p, WholeAt (drainingText ds) (dec j) p) ↔ j ∈ ds := by
  induction ds with
  | nil =>
    simp only [drainingText, List.map_nil, commaList, WholeAt, List.drop_nil, List.prefix_nil,
      dec_ne_nil, false_and, exists_false, List.not_mem_nil]
  | cons d ds ih =>
    cases ds with
    | nil =>
      have hsub : drainingText [d] = dec d ++ [] := by simp [drainingText, commaList]
      rw [hsub, List.mem_singleton, ← whole_first (d := d) (j := j) (t := []) (by simp) (by simp)]
      refine ⟨?_, fun h => ⟨0, h⟩⟩
      rintro ⟨p, hp⟩
      cases p with
      | zero => exact hp
      | succ p =>
        exfalso
        by_cases hin : p + 1 ≤ (dec d).length
        · exact not_whole_inside (Nat.succ_pos p) hin hp.2.1
        · have hdrop := hp.1
          rw [List.append_nil, List.drop_eq_nil_of_le (by omega)] at hdrop
          exact dec_ne_nil j (List.prefix_nil.mp hdrop)
    | cons e ds =>
      have hhead := whole_first (d := d) (j := j) (t := ',' :: ' ' :: drainingText (e :: ds))
        (by simp; decide) (by simp; decide)
      have hu : dec d ++ ',' :: ' ' :: drainingText (e :: ds) =
          (dec d ++ [',']) ++ ' ' :: drainingText (e :: ds) := by simp
      rw [drainingText_cons, List.mem_cons, ← ih, ← hhead]
      constructor
      · rintro ⟨p, hp⟩
        cases p with
        | zero => exact .inl hp
        | succ p =>
          right
          by_cases hin : p + 1 ≤ (dec d).length
          · exact absurd hp.2.1 (not_whole_inside (Nat.succ_pos p) hin)
          · by_cases hblank : p = (dec d).length
            · exfalso
              have hdrop := hp.1
              rw [hu, hblank, show (dec d).length + 1 = (dec d ++ [',']).length by simp,
                List.drop_left] at hdrop
              exact not_prefix_of_not_digit (by decide) hdrop
            · obtain ⟨m, rfl⟩ : ∃ m, p = (dec d).length + 1 + m := ⟨p - ((dec d).length + 1), by omega⟩
              refine ⟨m, ?_⟩
              rw [hu, show (dec d).length + 1 + m + 1 = (dec d ++ [',']).length + 1 + m by
                simp; omega, whole_shift] at hp
              exact hp
      · rintro (h | ⟨m, hm⟩)
        · exact ⟨0, h⟩
        · refine ⟨(dec d ++ [',']).length + 1 + m, ?_⟩
          rw [hu, whole_shift]
          exact hm

/-! ## The draining list of a record -/

theorem drainingText_append (ds : List Nat) (hne : ds ≠ []) (j : Nat) :
    drainingText (ds ++ [j]) = drainingText ds ++ (chars ", " ++ dec j) := by
  induction ds with
  | nil => exact absurd rfl hne
  | cons d ds ih =>
    cases ds with
    | nil => simp [drainingText, commaList]
    | cons e ds =>
      rw [List.cons_append, List.cons_append, drainingText_cons, drainingText_cons,
        ← List.cons_append, ih (by simp)]
      simp only [List.append_assoc, List.cons_append]

theorem bracket_not_mem_drainingText (ds : List Nat) : ']' ∉ drainingText ds := by
  induction ds with
  | nil => simp [drainingText, commaList]
  | cons d ds ih =>
    cases ds with
    | nil => simpa [drainingText, commaList] using not_mem_dec d (by decide)
    | cons e ds =>
      rw [drainingText_cons]
      simp [not_mem_dec d (c := ']') (by decide), ih]

namespace Record

/-- The text in front of the draining list. -/
def beforeDraining (r : Record) : Text :=
  parts '"' r.headParts (chars ": [" ++ (nodesText 0 r.nodes ++ chars "], "))

variable (r : Record)

theorem render_draining : r.render =
    r.beforeDraining ++ (drainingNeedle ++ (drainingText r.draining ++ (']' :: ['\x7d']))) := by
  have h1 : chars "], \"draining\": [" = chars "], " ++ drainingNeedle := by
    simp [chars, drainingNeedle]
  have h2 : chars "]\x7d" = ']' :: ['\x7d'] := by unfold chars; decide
  rw [r.render_eq, beforeDraining, ← parts_append, tailText, h1, h2]
  simp only [List.append_assoc]

theorem drainingNeedle_nodes (k : Nat) (ns : List (Nat × Nat)) (t : Text) :
    indexOf drainingNeedle (nodesText k ns ++ t) =
      (indexOf drainingNeedle t).map (· + (nodesText k ns).length) := by
  induction ns generalizing k with
  | nil => simp [nodesText]
  | cons n ns ih =>
    cases ns with
    | nil => rw [nodesText, drainingNeedle_pass]
    | cons m ns =>
      have hcomma : '"' ∉ chars ", " := by unfold chars; decide
      have hskip : ∀ t, indexOf drainingNeedle (chars ", " ++ t) =
          (indexOf drainingNeedle t).map (· + (chars ", ").length) := by
        intro t
        rw [drainingNeedle_eq, indexOf_skip hcomma]
      have hcons : nodesText k (n :: m :: ns) =
          nodeText k n.1 n.2 ++ (chars ", " ++ nodesText (k + 1) (m :: ns)) := by
        simp [nodesText]
      rw [hcons, List.append_assoc, drainingNeedle_pass, List.append_assoc, hskip, ih,
        Option.map_map, Option.map_map]
      congr 1
      funext x
      simp only [Function.comp_apply, List.length_append]
      omega

theorem find_draining : indexOf drainingNeedle r.render = some r.beforeDraining.length := by
  have hopen : '"' ∉ chars "], " := by unfold chars; decide
  have htail : indexOf drainingNeedle (tailText r.draining) = some (chars "], ").length := by
    have h1 : chars "], \"draining\": [" = chars "], " ++ drainingNeedle := by
      simp [chars, drainingNeedle]
    rw [tailText, h1, List.append_assoc, drainingNeedle_eq, List.cons_append]
    exact indexOf_hit hopen (List.prefix_append _ _)
  have hhead : indexOf drainingNeedle r.render = (indexOf drainingNeedle
      (nodesText 0 r.nodes ++ tailText r.draining)).map
        (· + (parts '"' r.headParts (chars ": [")).length) := by
    rw [r.render_eq, drainingNeedle_eq]
    refine r.head_pass isKey_draining (by simp [chars]) ⟨chars " [", ?_⟩ _
    simp [chars]
  rw [hhead, drainingNeedle_nodes, htail, beforeDraining, parts_append]
  simp only [Option.map_some, List.length_append]
  congr 1
  omega

theorem drop_draining : r.render.drop (r.beforeDraining.length + drainingNeedle.length) =
    drainingText r.draining ++ (']' :: ['\x7d']) := by
  rw [r.render_draining, ← List.append_assoc, ← List.length_append, List.drop_left]

theorem find_bracket : indexOf [']'] (drainingText r.draining ++ (']' :: ['\x7d'])) =
    some (drainingText r.draining).length :=
  indexOf_hit (bracket_not_mem_drainingText _) List.nil_prefix

theorem drainingSub : clusterDrainingSub r.render = drainingText r.draining := by
  rw [clusterDrainingSub]
  simp only [r.find_draining, r.drop_draining, r.find_bracket, List.take_left]

/-- **A node is read as draining exactly when the record lists it.** -/
theorem drainingContains (j : Nat) : clusterDrainingContains r.render j = true ↔ j ∈ r.draining := by
  rw [clusterDrainingContains, r.drainingSub, intToString_natCast, listsNumber_iff (dec_ne_nil j),
    whole_drainingText]

theorem drainingText_eq_nil {ds : List Nat} : drainingText ds = [] ↔ ds = [] := by
  cases ds with
  | nil => simp [drainingText, commaList]
  | cons d ds =>
    cases ds with
    | nil => simp [drainingText, commaList]
    | cons e ds => simp [drainingText_cons]

/-- **Adding a node to the draining list of the text adds it to the record.** -/
theorem render_addDraining (j : Nat) :
    clusterAddDraining r.render j = (r.addDraining j).render := by
  rw [clusterAddDraining, addDraining]
  by_cases hj : j ∈ r.draining
  · rw [if_pos ((r.drainingContains j).mpr hj), if_pos hj]
  · rw [if_neg (mt (r.drainingContains j).mp hj), if_neg hj]
    have hstart : r.render = (r.beforeDraining ++ drainingNeedle) ++
        (drainingText r.draining ++ (']' :: ['\x7d'])) := by
      rw [List.append_assoc]
      exact r.render_draining
    have hlen : r.beforeDraining.length + drainingNeedle.length =
        (r.beforeDraining ++ drainingNeedle).length := List.length_append.symm
    rw [({ r with draining := r.draining ++ [j] } : Record).render_draining]
    simp only [r.find_draining, r.drainingSub, r.drop_draining, r.find_bracket, intToString_natCast,
      drainingText_eq_nil]
    by_cases hnil : r.draining = []
    · rw [if_pos hnil, hlen, hstart, List.take_left, hnil]
      simp only [List.nil_append, drainingText, List.map_cons, List.map_nil, commaList,
        beforeDraining, headParts, List.append_assoc]
    · have hat : r.render = (r.beforeDraining ++ drainingNeedle ++ drainingText r.draining) ++
          (']' :: ['\x7d']) := by
        rw [List.append_assoc]
        exact hstart
      rw [if_neg hnil, hlen, ← List.length_append, hat, List.take_left, List.drop_left,
        drainingText_append _ hnil]
      simp only [beforeDraining, headParts, List.append_assoc]

end Record

end Cluster
