import Mathlib.Data.List.GetD
import Mathlib.Data.List.Induction
import Orbit.Tools.Doctor

/-!
# Edits are applied as they are asked for

The sort keeps all edits only of a list that is sorted already (`sort_perm_iff`), and on such a list
the verdict is `Clash` unless an insertion comes behind a replacement that starts at its line
(`conflict_iff`). Where there is none, splicing by offsets is editing line by line
(`applyFrom_spliced`, `spliced_eq`), except that an empty text takes the line end of its range with
it and a text keeps the line end that it has: the first such text shows in the result
(`spliced_ne`). So the engine does what it should exactly on the other lists (`fixes_iff`).
-/

namespace Tools.Doctor

/-! ## The sort -/

/-- An edit that starts no earlier than the others is put behind them. -/
theorem sortStep_last {out : List DoctorEdit} {e : DoctorEdit}
    (h : ∀ o ∈ out, o.startLine ≤ e.startLine) : sortStep out e = out ++ [e] := by
  have hslot : sortSlot out e = out.length := by
    refine List.findIdx_eq_length.mpr fun o ho => ?_
    have := h o ho
    simp only [decide_eq_false_iff_not]
    omega
  rw [sortStep, hslot, List.eraseIdx_of_length_le (Nat.le_refl _)]

/-- Any other one takes the place of the edit at its slot. -/
theorem length_sortStep {out : List DoctorEdit} {e : DoctorEdit}
    (h : ¬ ∀ o ∈ out, o.startLine ≤ e.startLine) : (sortStep out e).length = out.length := by
  have hslot : sortSlot out e < out.length := by
    rw [sortSlot, List.findIdx_lt_length]
    by_contra hnone
    refine h fun o ho => ?_
    have : ¬ e.startLine < o.startLine := fun hlt => hnone ⟨o, ho, decide_eq_true hlt⟩
    omega
  rw [sortStep, List.length_append, List.length_eraseIdx_of_lt hslot, List.length_singleton]
  omega

theorem sort_append (edits : List DoctorEdit) (e : DoctorEdit) :
    doctorSortEdits (edits ++ [e]) = sortStep (doctorSortEdits edits) e := by
  rw [doctorSortEdits, List.foldl_append]
  rfl

/-- A sorted list stays as it is. -/
theorem sort_sorted {edits : List DoctorEdit} (h : Sorted edits) :
    doctorSortEdits edits = edits := by
  induction edits using List.reverseRecOn with
  | nil => rfl
  | append_singleton edits e ih =>
    obtain ⟨hedits, -, hlast⟩ := List.pairwise_append.mp h
    rw [sort_append, ih hedits,
      sortStep_last fun o ho => hlast o ho e (List.mem_singleton.mpr rfl)]

theorem length_sort_le (edits : List DoctorEdit) :
    (doctorSortEdits edits).length ≤ edits.length := by
  induction edits using List.reverseRecOn with
  | nil => exact Nat.le_refl _
  | append_singleton edits e ih =>
    rw [sort_append, List.length_append, List.length_singleton]
    by_cases h : ∀ o ∈ doctorSortEdits edits, o.startLine ≤ e.startLine
    · rw [sortStep_last h, List.length_append, List.length_singleton]
      omega
    · rw [length_sortStep h]
      omega

/-- Every edit is still there only if none came before the ones it follows. -/
theorem sorted_of_length {edits : List DoctorEdit}
    (h : (doctorSortEdits edits).length = edits.length) : Sorted edits := by
  induction edits using List.reverseRecOn with
  | nil => exact List.Pairwise.nil
  | append_singleton edits e ih =>
    have hle := length_sort_le edits
    rw [sort_append, List.length_append, List.length_singleton] at h
    by_cases hlast : ∀ o ∈ doctorSortEdits edits, o.startLine ≤ e.startLine
    · rw [sortStep_last hlast, List.length_append, List.length_singleton] at h
      have hsorted := ih (by omega)
      rw [sort_sorted hsorted] at hlast
      refine List.pairwise_append.mpr ⟨hsorted, List.pairwise_singleton _ _, fun o ho e' he' => ?_⟩
      rw [List.mem_singleton.mp he']
      exact hlast o ho
    · rw [length_sortStep hlast] at h
      omega

/-- **The sort loses no edit only of a sorted list.** -/
theorem sort_perm_iff (edits : List DoctorEdit) :
    (doctorSortEdits edits).Perm edits ↔ Sorted edits := by
  constructor
  · exact fun h => sorted_of_length h.length_eq
  · intro h
    rw [sort_sorted h]

/-! ## The verdict -/

theorem firstConflict_eq_none (edits : List DoctorEdit) :
    firstConflict edits = none ↔ edits.Pairwise fun a b => a.endLine < b.startLine := by
  induction edits with
  | nil => simp [firstConflict]
  | cons a rest ih =>
    rw [firstConflict, List.pairwise_cons]
    by_cases hany : (rest.any fun b => decide (b.startLine ≤ a.endLine)) = true
    · rw [if_pos hany]
      obtain ⟨b, hb, hle⟩ := List.any_eq_true.mp hany
      simp only [reduceCtorEq, false_iff, not_and]
      intro h
      have := h b hb
      have := of_decide_eq_true hle
      omega
    · rw [if_neg hany, ih]
      refine ⟨fun h => ⟨fun b hb => ?_, h⟩, fun h => h.2⟩
      have : ¬ b.startLine ≤ a.endLine := fun hle =>
        hany (List.any_eq_true.mpr ⟨b, hb, decide_eq_true hle⟩)
      omega

/-- There is a verdict on the sorted edits unless each ends before the next ones. -/
theorem conflict_ne_empty {edits : List DoctorEdit} (h : Sorted edits) :
    doctorEditsConflict edits ≠ "" ↔ ¬ edits.Pairwise fun a b => a.endLine < b.startLine := by
  rw [doctorEditsConflict, sort_sorted h, ← firstConflict_eq_none]
  cases firstConflict edits with
  | none => simp
  | some a => simp

/-- In the order of their lines, two edits that do not clash are apart, unless the second is an
insertion in front of the first. -/
theorem apart_iff {a b : DoctorEdit} (hle : a.startLine ≤ b.startLine) (ha : a.Valid)
    (hb : b.Valid) :
    a.endLine < b.startLine ↔ clashes a b = false ∧
      ¬ (a.isInsertion = false ∧ b.isInsertion = true ∧ a.startLine = b.startLine) := by
  obtain ⟨ha1, ha2⟩ := ha
  obtain ⟨hb1, hb2⟩ := hb
  simp only [clashes, DoctorEdit.isInsertion, Bool.or_eq_false_iff, Bool.and_eq_false_iff,
    decide_eq_false_iff_not, decide_eq_true_eq, Bool.not_eq_false']
  omega

/-- Of edits in the order of their lines, the verdict speaks of a clash or of an insertion that
comes behind the replacement of its line. -/
theorem conflict_iff {edits : List DoctorEdit} (hs : Sorted edits) (hv : ∀ e ∈ edits, e.Valid) :
    doctorEditsConflict edits ≠ "" ↔ Clash edits ∨ InsertionBehind edits := by
  rw [conflict_ne_empty hs, Clash, InsertionBehind, ← not_and_or, ← List.pairwise_and_iff,
    not_iff_not]
  constructor
  · exact fun h => (hs.and h).imp_of_mem fun ha hb hab =>
      (apart_iff hab.1 (hv _ ha) (hv _ hb)).mp hab.2
  · exact fun h => (hs.and h).imp_of_mem fun ha hb hab =>
      (apart_iff hab.1 (hv _ ha) (hv _ hb)).mpr hab.2

/-! ## Lines and offsets -/

section
variable (source : Text)

theorem linesOf_flatten : (linesOf source).flatten = source := by
  induction source with
  | nil => rfl
  | cons c t ih =>
    rw [linesOf]
    split
    · rw [List.flatten_cons, ih]
      rfl
    · split
      next line lines heq =>
        rw [heq] at ih
        rw [← ih]
        rfl
      next heq =>
        rw [heq] at ih
        rw [← ih]
        rfl

theorem length_lineStartsFrom (i : Nat) :
    (lineStartsFrom i source).length + 1 = (linesOf source).length := by
  induction source generalizing i with
  | nil => rfl
  | cons c t ih =>
    have hne := ih (i + 1)
    rw [lineStartsFrom, linesOf]
    split
    · rw [List.length_cons, List.length_cons, hne]
    · split
      next heq =>
        rw [heq] at hne
        exact hne
      next heq =>
        rw [heq] at hne
        exact absurd hne (Nat.succ_ne_zero _)

end

/-- Where a line starts. -/
def lineOffset (lines : List Text) (line : Nat) : Nat := (lines.take (line - 1)).flatten.length

theorem lineStartsFrom_getD (i k : Nat) (source : Text) (h : k + 1 < (linesOf source).length) :
    (lineStartsFrom i source).getD k 0 = i + ((linesOf source).take (k + 1)).flatten.length := by
  induction source generalizing i k with
  | nil => simp [linesOf] at h
  | cons c t ih =>
    rw [linesOf] at h ⊢
    rw [lineStartsFrom]
    by_cases hc : c = '\n'
    · simp only [if_pos hc, List.length_cons] at h ⊢
      cases k with
      | zero => simp
      | succ k =>
        rw [List.getD_cons_succ, ih (i + 1) k (by omega), List.take_succ_cons, List.flatten_cons,
          List.length_append, List.length_singleton]
        omega
    · simp only [if_neg hc] at h ⊢
      cases hlines : linesOf t with
      | nil =>
        rw [hlines] at h
        simp at h
      | cons line lines =>
        have hk := ih (i + 1) k (by rw [hlines] at h ⊢; exact h)
        rw [hk, hlines]
        simp only [List.take_succ_cons, List.flatten_cons, List.length_append, List.length_cons]
        omega

section
variable {source : Text}

/-- The lines in front of a line, and those from it up to a later one. -/
theorem take_split (lines : List Text) {a b : Nat} (h : a ≤ b) :
    (lines.take (b - 1)).flatten = (lines.take (a - 1)).flatten ++ range lines a (b - 1) := by
  have hsplit := List.take_append_drop (a - 1) (lines.take (b - 1))
  rw [List.take_take, Nat.min_eq_left (by omega)] at hsplit
  rw [range, ← List.flatten_append, hsplit]

theorem lineOffset_mono {lines : List Text} {a b : Nat} (h : a ≤ b) :
    lineOffset lines a ≤ lineOffset lines b := by
  rw [lineOffset, lineOffset, take_split lines h, List.length_append]
  exact Nat.le_add_right _ _

theorem lineOffset_end {line : Nat} (h : (linesOf source).length < line) :
    lineOffset (linesOf source) line = source.length := by
  rw [lineOffset, List.take_of_length_le (by omega), linesOf_flatten]

theorem lineOffset_le (line : Nat) : lineOffset (linesOf source) line ≤ source.length := by
  have hend : lineOffset (linesOf source) (max line ((linesOf source).length + 1)) =
      source.length := lineOffset_end (by omega)
  rw [← hend]
  exact lineOffset_mono (Nat.le_max_left _ _)

theorem starts_length : (doctorLineStarts source).length = (linesOf source).length :=
  length_lineStartsFrom source 0

/-- The table of line starts holds the offsets of the lines. -/
theorem starts_getD {line : Nat} (h : line < (linesOf source).length) :
    (doctorLineStarts source).getD line 0 = lineOffset (linesOf source) (line + 1) := by
  cases line with
  | zero => rfl
  | succ k =>
    rw [doctorLineStarts, List.getD_cons_succ, lineStartsFrom_getD 0 k source h, Nat.zero_add]
    rfl

theorem startOffset_eq {line : Nat} (h : 1 ≤ line) :
    doctorStartOffset (doctorLineStarts source) line source.length =
      lineOffset (linesOf source) line := by
  rw [doctorStartOffset, if_neg (by omega), starts_length]
  split
  next hgt => exact (lineOffset_end hgt).symm
  next hle =>
    rw [starts_getD (by omega), Nat.sub_add_cancel h]

end

/-- What stands between the starts of two lines is the lines between them. -/
theorem slice_lines (source : Text) {a b : Nat} (h : a ≤ b) :
    slice source (lineOffset (linesOf source) a) (lineOffset (linesOf source) b) =
      range (linesOf source) a (b - 1) := by
  have hsource : source =
      ((linesOf source).take (b - 1)).flatten ++ ((linesOf source).drop (b - 1)).flatten := by
    rw [← List.flatten_append, List.take_append_drop, linesOf_flatten]
  have hb : source.take (lineOffset (linesOf source) b) =
      ((linesOf source).take (b - 1)).flatten :=
    (congrArg (List.take _) hsource).trans (List.take_left' rfl)
  rw [slice, hb, take_split _ h]
  exact List.drop_left' rfl

theorem range_empty (lines : List Text) {a b : Nat} (h : b < a) : range lines a b = [] := by
  rw [range, List.drop_eq_nil_of_le, List.flatten_nil]
  rw [List.length_take]
  omega

/-- The text behind a line start is the lines from there on. -/
theorem slice_end (source : Text) (a : Nat) {b : Nat} (h : (linesOf source).length ≤ b) :
    slice source (lineOffset (linesOf source) a) source.length = range (linesOf source) a b := by
  by_cases hle : a ≤ b + 1
  · rw [← lineOffset_end (Nat.lt_succ_of_le h), slice_lines source hle, Nat.add_sub_cancel]
  · rw [lineOffset_end (by omega), range_empty _ (by omega), slice, List.drop_eq_nil_of_le]
    exact List.length_take_le _ _

/-- What the engine puts in place of a range. -/
def engineText (replaced text : Text) : Text :=
  if doctorEndsWithNewline text then text else text ++ endingOf replaced

theorem editText_lines (source text : Text) {a b : Nat} (h : a ≤ b) :
    doctorEditText source (lineOffset (linesOf source) a) (lineOffset (linesOf source) (b + 1))
        text =
      engineText (range (linesOf source) a b) text := by
  have hab : a ≤ b + 1 := by omega
  have hslice := slice_lines source hab
  have hlength := congrArg List.length (take_split (linesOf source) hab)
  rw [Nat.add_sub_cancel] at hslice hlength
  rw [List.length_append] at hlength
  simp only [doctorEditText, hslice, engineText]
  by_cases hempty : lineOffset (linesOf source) a ≥ lineOffset (linesOf source) (b + 1)
  · have hrange : range (linesOf source) a b = [] := by
      simp only [lineOffset, Nat.add_sub_cancel] at hempty
      exact List.length_eq_zero_iff.mp (by omega)
    rw [if_pos hempty, hrange, show endingOf [] = [] from rfl, List.append_nil, ite_self]
  · rw [if_neg hempty]
    split
    next hending => rw [hending, List.append_nil, ite_self]
    next => rfl

/-! ## Splicing -/

section
variable {lines : List Text} {f : Text → Text → Text} {e : DoctorEdit} {rest : List DoctorEdit}
  {line : Nat}

/-- A line in front of all edits stays as it is. -/
theorem editedLine_front {edits : List DoctorEdit} (h : ∀ e ∈ edits, line < e.startLine) :
    editedLine lines f edits line = lines.getD (line - 1) [] := by
  have hfilter : (edits.filter fun e => e.isInsertion && e.startLine = line) = [] := by
    refine List.filter_eq_nil_iff.mpr fun e he => ?_
    have := h e he
    simp only [Bool.and_eq_true, decide_eq_true_eq, not_and]
    omega
  have hfind : (edits.find? fun e => e.covers line) = none := by
    refine List.find?_eq_none.mpr fun e he => ?_
    have := h e he
    simp only [DoctorEdit.covers, Bool.and_eq_true, decide_eq_true_eq, not_and]
    omega
  rw [editedLine, hfilter, hfind]
  rfl

theorem covers_insertion (hins : e.isInsertion = true) : e.covers line = false := by
  simp only [DoctorEdit.isInsertion, decide_eq_true_eq] at hins
  simp only [DoctorEdit.covers, Bool.and_eq_false_iff, decide_eq_false_iff_not]
  omega

theorem editedLine_insertion (hins : e.isInsertion = true) :
    editedLine lines f (e :: rest) line =
      (if e.startLine = line then e.text else []) ++ editedLine lines f rest line := by
  rw [editedLine, editedLine, List.find?_cons_of_neg (by rw [covers_insertion hins]; decide)]
  by_cases hline : e.startLine = line
  · rw [List.filter_cons_of_pos (by simp [hins, hline]), if_pos hline, List.flatMap_cons,
      List.append_assoc]
  · rw [List.filter_cons_of_neg (by simp [hline]), if_neg hline, List.nil_append]

/-- In the range of the first edit the others put nothing. -/
theorem editedLine_covered (hlater : ∀ e' ∈ rest, e.endLine < e'.startLine)
    (hcovers : e.covers line = true) :
    editedLine lines f (e :: rest) line =
      if e.startLine = line then f (range lines line e.endLine) e.text else [] := by
  have hfilter : ((e :: rest).filter fun e => e.isInsertion && e.startLine = line) = [] := by
    simp only [DoctorEdit.covers, Bool.and_eq_true, decide_eq_true_eq] at hcovers
    refine List.filter_eq_nil_iff.mpr fun e' he' => ?_
    simp only [DoctorEdit.isInsertion, Bool.and_eq_true, decide_eq_true_eq, not_and]
    rcases List.mem_cons.mp he' with rfl | hrest
    · omega
    · have := hlater e' hrest
      omega
  have hfind : ((e :: rest).find? fun e => e.covers line) = some e :=
    List.find?_cons_of_pos hcovers
  rw [editedLine, hfilter, hfind]
  rfl

theorem editedLine_behind (hrep : e.isInsertion = false) (hbehind : e.endLine < line) :
    editedLine lines f (e :: rest) line = editedLine lines f rest line := by
  have hcovers : ¬ e.covers line = true := by
    simp only [DoctorEdit.covers, Bool.and_eq_true, decide_eq_true_eq, not_and]
    omega
  have hfind : ((e :: rest).find? fun e => e.covers line) = rest.find? fun e => e.covers line :=
    List.find?_cons_of_neg hcovers
  rw [editedLine, editedLine, hfind, List.filter_cons_of_neg (by simp [hrep])]

end

theorem range_cons (lines : List Text) {a b : Nat} (ha : 1 ≤ a) (h : a ≤ b) :
    range lines a b = lines.getD (a - 1) [] ++ range lines (a + 1) b := by
  rw [range, range, Nat.add_sub_cancel]
  by_cases hlt : a - 1 < (lines.take b).length
  · have hlines : a - 1 < lines.length := Nat.lt_of_lt_of_le hlt (List.length_take_le' _ _)
    rw [List.drop_eq_getElem_cons hlt, List.flatten_cons, List.getElem_take, Nat.sub_add_cancel ha,
      List.getD_eq_getElem _ _ hlines]
  · have hlines : lines.length ≤ a - 1 := by
      rw [List.length_take] at hlt
      omega
    rw [List.drop_eq_nil_of_le (by omega), List.drop_eq_nil_of_le (by omega),
      List.getD_eq_default _ _ hlines]
    rfl

/-- Lines that no edit names stay as they are. -/
theorem flatMap_untouched {lines : List Text} {f : Nat → Text} {a n : Nat} (ha : 1 ≤ a)
    (hf : ∀ line, a ≤ line → line < a + n → f line = lines.getD (line - 1) []) :
    (List.range' a n).flatMap f = range lines a (a + n - 1) := by
  induction n generalizing a with
  | zero => rw [range_empty lines (by omega)]; rfl
  | succ n ih =>
    rw [List.range'_succ, List.flatMap_cons, hf a (Nat.le_refl _) (by omega),
      ih (by omega) fun line hle hlt => hf line (by omega) (by omega),
      range_cons lines ha (by omega), show a + 1 + n - 1 = a + (n + 1) - 1 by omega]

/-- Lines at which nothing stands can be left out. -/
theorem flatMap_skip {f : Nat → Text} {a b n : Nat} (hab : a ≤ b)
    (hf : ∀ line, a ≤ line → line < b → f line = []) :
    (List.range' a n).flatMap f = (List.range' b (a + n - b)).flatMap f := by
  induction n generalizing a with
  | zero => rw [show a + 0 - b = 0 by omega]; rfl
  | succ n ih =>
    rcases Nat.eq_or_lt_of_le hab with rfl | hlt
    · rw [Nat.add_sub_cancel_left]
    · rw [List.range'_succ, List.flatMap_cons, hf a (Nat.le_refl _) hlt, List.nil_append,
        ih hlt fun line hle hlt => hf line (by omega) hlt,
        show a + 1 + n - b = a + (n + 1) - b by omega]

section
variable {lines : List Text} {f : Text → Text → Text} {e : DoctorEdit} {rest : List DoctorEdit}

/-- An insertion puts its text in front of what the other edits make of its line. -/
theorem flatMap_insertion (hins : e.isInsertion = true) (n : Nat) :
    (List.range' e.startLine (n + 1)).flatMap (editedLine lines f (e :: rest)) =
      e.text ++ (List.range' e.startLine (n + 1)).flatMap (editedLine lines f rest) := by
  have hothers : (List.range' (e.startLine + 1) n).flatMap (editedLine lines f (e :: rest)) =
      (List.range' (e.startLine + 1) n).flatMap (editedLine lines f rest) := by
    refine List.flatMap_congr fun line hline => ?_
    obtain ⟨hle, -⟩ := List.mem_range'_1.mp hline
    rw [editedLine_insertion hins, if_neg (by omega), List.nil_append]
  rw [List.range'_succ, List.flatMap_cons, List.flatMap_cons, hothers, editedLine_insertion hins,
    if_pos rfl, List.append_assoc]

/-- A replacement puts its text in place of the lines of its range. -/
theorem flatMap_replacement (hrep : e.isInsertion = false)
    (hlater : ∀ e' ∈ rest, e.endLine < e'.startLine) (n : Nat) :
    (List.range' e.startLine (n + 1)).flatMap (editedLine lines f (e :: rest)) =
      f (range lines e.startLine e.endLine) e.text ++
        (List.range' (e.endLine + 1) (e.startLine + n - e.endLine)).flatMap
          (editedLine lines f rest) := by
  have hle : e.startLine ≤ e.endLine := by
    simp only [DoctorEdit.isInsertion, decide_eq_false_iff_not] at hrep
    omega
  have hcovers : ∀ line, e.startLine ≤ line → line < e.endLine + 1 → e.covers line = true := by
    intro line h1 h2
    simp only [DoctorEdit.covers, Bool.and_eq_true, decide_eq_true_eq]
    omega
  have hskip := flatMap_skip (f := editedLine lines f (e :: rest)) (n := n)
    (show e.startLine + 1 ≤ e.endLine + 1 by omega) fun line h1 h2 => by
      rw [editedLine_covered hlater (hcovers line (by omega) h2), if_neg (by omega)]
  have hothers : ∀ line ∈ List.range' (e.endLine + 1) (e.startLine + 1 + n - (e.endLine + 1)),
      editedLine lines f (e :: rest) line = editedLine lines f rest line := by
    intro line hline
    obtain ⟨hlt, -⟩ := List.mem_range'_1.mp hline
    exact editedLine_behind hrep hlt
  rw [List.range'_succ, List.flatMap_cons, hskip, List.flatMap_congr hothers,
    editedLine_covered hlater (hcovers _ (Nat.le_refl _) (by omega)), if_pos rfl,
    show e.startLine + 1 + n - (e.endLine + 1) = e.startLine + n - e.endLine by omega]

end

section
variable {source : Text} {e : DoctorEdit}

/-- The offset at which the loop goes on behind an edit. -/
theorem stop_eq (hv : e.Valid) :
    (if e.endLine ≥ e.startLine then
        if e.endLine + 1 ≤ (doctorLineStarts source).length then
          (doctorLineStarts source).getD e.endLine 0
        else source.length
      else lineOffset (linesOf source) e.startLine) =
      lineOffset (linesOf source) (e.endLine + 1) := by
  obtain ⟨-, hle⟩ := hv
  rw [starts_length]
  split
  next =>
    split
    next hin => exact starts_getD hin
    next hout => exact (lineOffset_end (by omega)).symm
  next => rw [show e.startLine = e.endLine + 1 by omega]

/-- One edit: the text up to it, its own text, and the rest behind its range. -/
theorem applyFrom_cons (hv : e.Valid) {cursor : Nat} (hcursor : cursor ≤ e.startLine)
    (rest : List DoctorEdit) :
    applyFrom source (lineOffset (linesOf source) cursor) (e :: rest) =
      range (linesOf source) cursor (e.startLine - 1) ++
        (if e.isInsertion then e.text
          else engineText (range (linesOf source) e.startLine e.endLine) e.text) ++
        applyFrom source (lineOffset (linesOf source) (e.endLine + 1)) rest := by
  have hstart : lineOffset (linesOf source) cursor ≤ lineOffset (linesOf source) e.startLine :=
    lineOffset_mono hcursor
  have hstop :
      lineOffset (linesOf source) e.startLine ≤ lineOffset (linesOf source) (e.endLine + 1) :=
    lineOffset_mono hv.2
  have htotal : lineOffset (linesOf source) (e.endLine + 1) ≤ source.length := lineOffset_le _
  have htext : doctorEditText source (lineOffset (linesOf source) e.startLine)
      (lineOffset (linesOf source) (e.endLine + 1)) e.text =
      if e.isInsertion then e.text
      else engineText (range (linesOf source) e.startLine e.endLine) e.text := by
    split
    next hins =>
      have : e.startLine = e.endLine + 1 := by
        have := hv.2
        simp only [DoctorEdit.isInsertion, decide_eq_true_eq] at hins
        omega
      rw [this, doctorEditText, if_pos (Nat.le_refl _)]
    next hrep =>
      simp only [DoctorEdit.isInsertion, decide_eq_true_eq] at hrep
      exact editText_lines source e.text (by omega)
  rw [applyFrom]
  simp only [startOffset_eq hv.1, stop_eq hv]
  rw [if_neg (Nat.not_lt.mpr hstart), if_neg (Nat.not_lt.mpr hstop),
    if_neg (Nat.not_lt.mpr (Nat.le_trans hstop htotal)), if_neg (Nat.not_lt.mpr htotal),
    slice_lines source hcursor, htext]

end

/-- The lines from `cursor` to `last`, with the edits. -/
def spliced (f : Text → Text → Text) (lines : List Text) (last cursor : Nat) :
    List DoctorEdit → Text
  | [] => range lines cursor last
  | e :: rest =>
    range lines cursor (e.startLine - 1) ++
      (if e.isInsertion then e.text else f (range lines e.startLine e.endLine) e.text) ++
      spliced f lines last (e.endLine + 1) rest

/-- **Splicing by offsets** puts the texts between the lines. -/
theorem applyFrom_spliced (source : Text) {edits : List DoctorEdit} (hv : ∀ e ∈ edits, e.Valid)
    (hapart : edits.Pairwise fun a b => a.endLine < b.startLine) {cursor last : Nat}
    (hcursor : ∀ e ∈ edits, cursor ≤ e.startLine) (hlines : (linesOf source).length ≤ last) :
    applyFrom source (lineOffset (linesOf source) cursor) edits =
      spliced engineText (linesOf source) last cursor edits := by
  induction edits generalizing cursor with
  | nil => exact slice_end source cursor hlines
  | cons e rest ih =>
    obtain ⟨hlater, hapart⟩ := List.pairwise_cons.mp hapart
    rw [applyFrom_cons (hv e List.mem_cons_self) (hcursor e List.mem_cons_self), spliced,
      ih (fun e' he' => hv e' (List.mem_cons_of_mem _ he')) hapart hlater]

/-- **The lines with the edits are the edited lines.** -/
theorem spliced_eq (f : Text → Text → Text) (lines : List Text) {edits : List DoctorEdit}
    (hv : ∀ e ∈ edits, e.Valid) (hapart : edits.Pairwise fun a b => a.endLine < b.startLine)
    {cursor last : Nat} (hpos : 1 ≤ cursor) (hcursor : ∀ e ∈ edits, cursor ≤ e.startLine)
    (hlast : ∀ e ∈ edits, e.startLine ≤ last) :
    spliced f lines last cursor edits =
      (List.range' cursor (last + 1 - cursor)).flatMap (editedLine lines f edits) := by
  induction edits generalizing cursor with
  | nil =>
    rw [spliced, flatMap_untouched hpos fun line _ _ =>
      editedLine_front fun e he => absurd he List.not_mem_nil]
    by_cases hle : cursor ≤ last
    · rw [show cursor + (last + 1 - cursor) - 1 = last by omega]
    · rw [range_empty _ (by omega), range_empty _ (by omega)]
  | cons e rest ih =>
    obtain ⟨hlater, hapart⟩ := List.pairwise_cons.mp hapart
    have hvalid := hv e List.mem_cons_self
    have hfrom := hcursor e List.mem_cons_self
    have hto := hlast e List.mem_cons_self
    have hbefore : ∀ line, cursor ≤ line → line < cursor + (e.startLine - cursor) →
        editedLine lines f (e :: rest) line = lines.getD (line - 1) [] := by
      intro line _ hlt
      refine editedLine_front fun e' he' => ?_
      rcases List.mem_cons.mp he' with rfl | hrest
      · omega
      · have := hlater e' hrest
        have := hvalid.2
        omega
    have hsplit : List.range' cursor (last + 1 - cursor) =
        List.range' cursor (e.startLine - cursor) ++
          List.range' e.startLine (last - e.startLine + 1) := by
      have happend := @List.range'_append_1 cursor (e.startLine - cursor) (last - e.startLine + 1)
      rw [Nat.add_sub_cancel' hfrom] at happend
      rw [happend,
        show last + 1 - cursor = e.startLine - cursor + (last - e.startLine + 1) by omega]
    rw [spliced, ih (fun e' he' => hv e' (List.mem_cons_of_mem _ he')) hapart
      (Nat.le_add_left 1 _) hlater (fun e' he' => hlast e' (List.mem_cons_of_mem _ he')), hsplit,
      List.flatMap_append, flatMap_untouched hpos hbefore, Nat.add_sub_cancel' hfrom,
      List.append_assoc]
    congr 1
    cases hins : e.isInsertion with
    | true =>
      have hend : e.startLine = e.endLine + 1 := by
        have := hvalid.2
        simp only [DoctorEdit.isInsertion, decide_eq_true_eq] at hins
        omega
      rw [if_pos rfl, flatMap_insertion hins, ← hend,
        show last + 1 - e.startLine = last - e.startLine + 1 by omega]
    | false =>
      rw [if_neg (by decide), flatMap_replacement hins hlater,
        show e.startLine + (last - e.startLine) - e.endLine = last + 1 - (e.endLine + 1) by omega]

/-! ## Line ends -/

/-- What a text ends with. -/
theorem endingOf_cases (t : Text) :
    (t.getLast? = some '\n' ∧ (endingOf t = ['\n'] ∨ endingOf t = ['\r', '\n']) ∧
      endingOf t <:+ t) ∨
    (t.getLast? = some '\r' ∧ endingOf t = ['\r']) ∨
    (t.getLast? ≠ some '\n' ∧ endingOf t = []) := by
  rw [endingOf]
  by_cases hfeed : t.getLast? = some '\n'
  · refine .inl ⟨hfeed, ?_⟩
    obtain ⟨u, rfl⟩ := List.getLast?_eq_some_iff.mp hfeed
    rw [if_pos hfeed]
    split
    next hret =>
      obtain ⟨hlen, hget⟩ := hret
      rw [List.length_append, List.length_singleton] at hlen hget
      have hlast : u.getLast? = some '\r' := by
        rw [List.getLast?_eq_getElem?, ← hget, List.getD_eq_getElem?_getD,
          show u.length + 1 - 2 = u.length - 1 by omega, List.getElem?_append_left (by omega),
          List.getElem?_eq_getElem (by omega), Option.getD_some]
      obtain ⟨v, rfl⟩ := List.getLast?_eq_some_iff.mp hlast
      exact ⟨.inr rfl, v, by simp⟩
    next => exact ⟨.inl rfl, u, rfl⟩
  · rw [if_neg hfeed]
    split
    next hret => exact .inr (.inl ⟨hret, rfl⟩)
    next => exact .inr (.inr ⟨hfeed, rfl⟩)

/-- A text with a line feed at its end is its content and its line end. -/
theorem content_ending {t : Text} (h : t.getLast? = some '\n') :
    content t ++ endingOf t = t := by
  rcases endingOf_cases t with ⟨-, -, u, hu⟩ | ⟨hret, -⟩ | ⟨hno, -⟩
  · have hlen := congrArg List.length hu
    rw [List.length_append] at hlen
    conv_lhs =>
      rw [content, if_pos h, show t.length - (endingOf t).length = u.length by omega]
    nth_rewrite 1 [← hu]
    rw [List.take_left, hu]
  · rw [hret] at h
    cases h
  · exact absurd h hno

/-- The text of the engine is the one that is asked for, or it ends otherwise. -/
theorem engineText_cases (replaced text : Text) :
    (engineText replaced text = withEnding replaced text ∧
      (endingOf replaced ≠ [] → text ≠ [] ∧
        (text.getLast? = some '\n' → endingOf text = endingOf replaced))) ∨
    ∃ t ending, engineText replaced text = t ++ ending ∧
      withEnding replaced text = t ++ endingOf replaced ∧
      endingOf replaced ≠ [] ∧ ending ≠ endingOf replaced ∧
      (ending = [] ∧ text = [] ∨ text.getLast? = some '\n' ∧ ending = endingOf text ∧
        (ending = ['\n'] ∨ ending = ['\r', '\n'])) := by
  by_cases hnone : endingOf replaced = []
  · refine .inl ⟨?_, fun h => absurd hnone h⟩
    rw [engineText, withEnding, hnone, List.append_nil, ite_self, if_pos rfl]
  by_cases hempty : text = []
  · subst hempty
    exact .inr ⟨[], [], rfl, by rw [withEnding, if_neg hnone]; rfl, hnone, Ne.symm hnone,
      .inl ⟨rfl, rfl⟩⟩
  by_cases hfeed : text.getLast? = some '\n'
  · have hengine : engineText replaced text = text := by
      rw [engineText, doctorEndsWithNewline, hfeed]
      simp
    by_cases heq : endingOf text = endingOf replaced
    · refine .inl ⟨?_, fun _ => ⟨hempty, fun _ => heq⟩⟩
      rw [hengine, withEnding, if_neg hnone, ← heq, content_ending hfeed]
    · refine .inr ⟨content text, endingOf text, ?_, ?_, hnone, heq, .inr ⟨hfeed, rfl, ?_⟩⟩
      · rw [hengine, content_ending hfeed]
      · rw [withEnding, if_neg hnone]
      · rcases endingOf_cases text with ⟨-, h, -⟩ | ⟨hret, -⟩ | ⟨hno, -⟩
        · exact h
        · rw [hret] at hfeed
          cases hfeed
        · exact absurd hfeed hno
  · refine .inl ⟨?_, fun _ => ⟨hempty, fun h => absurd h hfeed⟩⟩
    rw [engineText, withEnding, if_neg hnone, content, if_neg hfeed, doctorEndsWithNewline]
    simp [hempty, hfeed]

/-- A line in front of the last one ends with a line feed. -/
theorem linesOf_ends (source : Text) :
    ∀ line ∈ (linesOf source).dropLast, line.getLast? = some '\n' := by
  induction source with
  | nil => simp [linesOf]
  | cons c t ih =>
    intro line h
    rw [linesOf] at h
    split at h
    next hc =>
      rcases hlines : linesOf t with _ | ⟨first, lines⟩
      · simp [hlines] at h
      · rw [hlines, List.dropLast_cons_cons, List.mem_cons] at h
        rcases h with rfl | h
        · rw [hc]
          rfl
        · exact ih line (by rwa [hlines])
    next =>
      rcases hlines : linesOf t with _ | ⟨first, _ | ⟨second, lines⟩⟩
      · simp [hlines] at h
      · simp [hlines] at h
      · rw [hlines, List.dropLast_cons_cons, List.forall_mem_cons] at ih
        simp only [hlines, List.dropLast_cons_cons, List.mem_cons] at h
        rcases h with rfl | h
        · obtain ⟨u, rfl⟩ := List.getLast?_eq_some_iff.mp ih.1
          exact List.getLast?_eq_some_iff.mpr ⟨c :: u, rfl⟩
        · exact ih.2 line h

/-- Lines that end with a carriage return alone are the last ones. -/
theorem length_le_of_return {source : Text} {a b : Nat} (hab : a ≤ b) (ha : 1 ≤ a)
    (h : endingOf (range (linesOf source) a b) = ['\r']) : (linesOf source).length ≤ b := by
  by_contra hlt
  have hmem : ∀ line ∈ ((linesOf source).take b).drop (a - 1), line.getLast? = some '\n' := by
    intro line hline
    refine linesOf_ends source line ?_
    rw [List.dropLast_eq_take]
    exact (List.take_prefix_take_left (by omega)).subset (List.mem_of_mem_drop hline)
  have hne : ((linesOf source).take b).drop (a - 1) ≠ [] := by
    rw [Ne, List.drop_eq_nil_iff, List.length_take]
    omega
  have hfeed : (range (linesOf source) a b).getLast? = some '\n' := by
    have hlast := hmem _ (List.getLast_mem hne)
    obtain ⟨u, hu⟩ := List.getLast?_eq_some_iff.mp hlast
    rw [range, ← List.dropLast_append_getLast hne, List.flatten_append, List.flatten_singleton, hu,
      ← List.append_assoc]
    exact List.getLast?_eq_some_iff.mpr ⟨_, rfl⟩
  rcases endingOf_cases (range (linesOf source) a b) with ⟨-, hend, -⟩ | ⟨hret, -⟩ | ⟨hno, -⟩
  · rw [h] at hend
    rcases hend with hend | hend
    · exact absurd hend (by decide)
    · exact absurd hend (by decide)
  · rw [hfeed] at hret
    exact absurd hret (by decide)
  · exact hno hfeed

section
variable {source : Text} {last : Nat}

/-- Behind the last line there is nothing to replace. -/
theorem spliced_beyond {edits : List DoctorEdit}
    (h : ∀ e ∈ edits, (linesOf source).length < e.startLine) (cursor : Nat) :
    spliced engineText (linesOf source) last cursor edits =
      spliced withEnding (linesOf source) last cursor edits := by
  induction edits generalizing cursor with
  | nil => rfl
  | cons e rest ih =>
    have hrange : range (linesOf source) e.startLine e.endLine = [] := by
      have := h e List.mem_cons_self
      rw [range, List.drop_eq_nil_of_le, List.flatten_nil]
      rw [List.length_take]
      omega
    have htext : engineText [] e.text = withEnding [] e.text := by
      rw [engineText, withEnding, show endingOf [] = [] from rfl, if_pos rfl, List.append_nil,
        ite_self]
    rw [spliced, spliced, ih (fun e' he' => h e' (List.mem_cons_of_mem _ he')), hrange, htext]

/-- A text with a line feed in place of the last lines, when they end with a carriage return. -/
theorem spliced_return {edits : List DoctorEdit} (hv : ∀ e ∈ edits, e.Valid)
    (hapart : edits.Pairwise fun a b => a.endLine < b.startLine) {e : DoctorEdit} (he : e ∈ edits)
    (hrep : e.isInsertion = false)
    (hret : endingOf (range (linesOf source) e.startLine e.endLine) = ['\r'])
    (hfeed : e.text.getLast? = some '\n') (cursor : Nat) :
    ∃ u v r, spliced engineText (linesOf source) last cursor edits = u ++ '\n' :: r ∧
      spliced withEnding (linesOf source) last cursor edits = v ++ '\r' :: r := by
  induction edits generalizing cursor with
  | nil => exact absurd he List.not_mem_nil
  | cons e' rest ih =>
    obtain ⟨hlater, hapart⟩ := List.pairwise_cons.mp hapart
    rw [spliced, spliced]
    rcases List.mem_cons.mp he with rfl | hrest
    · have hle : e.startLine ≤ e.endLine := by
        simpa [DoctorEdit.isInsertion] using hrep
      have hbeyond := length_le_of_return hle (hv e List.mem_cons_self).1 hret
      have hsame : spliced engineText (linesOf source) last (e.endLine + 1) rest =
          spliced withEnding (linesOf source) last (e.endLine + 1) rest :=
        spliced_beyond (fun e' he' => Nat.lt_of_le_of_lt hbeyond (hlater e' he')) _
      obtain ⟨w, hw⟩ := List.getLast?_eq_some_iff.mp hfeed
      have hengine : engineText (range (linesOf source) e.startLine e.endLine) e.text =
          w ++ ['\n'] := by
        rw [engineText, doctorEndsWithNewline, hfeed, hw]
        simp
      rw [if_neg (by rw [hrep]; decide), if_neg (by rw [hrep]; decide), hsame, hengine, withEnding,
        hret, if_neg (List.cons_ne_nil _ _)]
      refine ⟨range (linesOf source) cursor (e.startLine - 1) ++ w,
        range (linesOf source) cursor (e.startLine - 1) ++ content e.text,
        spliced withEnding (linesOf source) last (e.endLine + 1) rest, ?_, ?_⟩
      · simp only [List.append_assoc, List.singleton_append]
      · simp only [List.append_assoc, List.singleton_append]
    · obtain ⟨u, v, r, hu, hv'⟩ := ih (fun e' he' => hv e' (List.mem_cons_of_mem _ he')) hapart
        hrest (e'.endLine + 1)
      rw [hu, hv']
      exact ⟨_ ++ u, _ ++ v, r, (List.append_assoc _ _ _).symm, (List.append_assoc _ _ _).symm⟩

/-- Otherwise the engine puts no more line feeds than are asked for. -/
theorem count_engineText_le {replaced text : Text}
    (h : endingOf replaced = ['\r'] → text.getLast? ≠ some '\n') :
    (engineText replaced text).count '\n' ≤ (withEnding replaced text).count '\n' := by
  rcases engineText_cases replaced text with ⟨heq, -⟩ | ⟨t, ending, heq, heq', hne, -, hend⟩
  · exact Nat.le_of_eq (congrArg _ heq)
  · rw [heq, heq', List.count_append, List.count_append]
    rcases hend with ⟨rfl, -⟩ | ⟨hfeed, -, hend⟩
    · exact Nat.add_le_add_left (Nat.zero_le _) _
    · have hone : ending.count '\n' = 1 := by
        rcases hend with rfl | rfl
        · rfl
        · rfl
      have hone' : (endingOf replaced).count '\n' = 1 := by
        rcases endingOf_cases replaced with ⟨-, hrep | hrep, -⟩ | ⟨-, hret⟩ | ⟨-, hno⟩
        · rw [hrep]
          rfl
        · rw [hrep]
          rfl
        · exact absurd hfeed (h hret)
        · exact absurd hno hne
      exact Nat.add_le_add_left (Nat.le_of_eq (hone.trans hone'.symm)) _

theorem count_spliced_le {edits : List DoctorEdit}
    (h : ∀ e ∈ edits, e.isInsertion = false →
      endingOf (range (linesOf source) e.startLine e.endLine) = ['\r'] →
        e.text.getLast? ≠ some '\n') (cursor : Nat) :
    (spliced engineText (linesOf source) last cursor edits).count '\n' ≤
      (spliced withEnding (linesOf source) last cursor edits).count '\n' := by
  induction edits generalizing cursor with
  | nil => exact Nat.le_refl _
  | cons e rest ih =>
    have hrest := ih (fun e' he' => h e' (List.mem_cons_of_mem _ he')) (e.endLine + 1)
    rw [spliced, spliced, List.count_append, List.count_append, List.count_append,
      List.count_append]
    cases hins : e.isInsertion with
    | true => exact Nat.add_le_add (Nat.le_refl _) hrest
    | false =>
      have hpiece := count_engineText_le (h e List.mem_cons_self hins)
      exact Nat.add_le_add (Nat.add_le_add_left hpiece _) hrest

/-- Two line ends, or none and one, with texts behind them. -/
theorem ending_ne {ending asked r r' : Text}
    (hending : ending = [] ∨ ending = ['\n'] ∨ ending = ['\r', '\n'])
    (hasked : asked = ['\n'] ∨ asked = ['\r', '\n'] ∨ (asked = ['\r'] ∧ ending = [] ∧ r = r'))
    (hother : ending ≠ asked) (hcount : r.count '\n' ≤ r'.count '\n') :
    ending ++ r ≠ asked ++ r' := by
  intro heq
  rcases hasked with rfl | rfl | ⟨rfl, rfl, rfl⟩
  · rcases hending with rfl | rfl | rfl
    · have := congrArg (List.count '\n') heq
      rw [List.nil_append, List.singleton_append, List.count_cons_self] at this
      omega
    · exact hother rfl
    · exact absurd (List.cons.inj heq).1 (by decide)
  · rcases hending with rfl | rfl | rfl
    · have := congrArg (List.count '\n') heq
      rw [List.nil_append, List.cons_append, List.count_cons_of_ne (by decide),
        List.singleton_append, List.count_cons_self] at this
      omega
    · exact absurd (List.cons.inj heq).1 (by decide)
    · exact hother rfl
  · have := congrArg List.length heq
    rw [List.nil_append, List.singleton_append, List.length_cons] at this
    omega

/-- Where each range keeps its line end, the engine puts the texts that are asked for. -/
theorem spliced_same {edits : List DoctorEdit} (h : KeepsEnding source edits) (cursor : Nat) :
    spliced engineText (linesOf source) last cursor edits =
      spliced withEnding (linesOf source) last cursor edits := by
  induction edits generalizing cursor with
  | nil => rfl
  | cons e rest ih =>
    rw [spliced, spliced, ih fun e' he' => h e' (List.mem_cons_of_mem _ he')]
    cases hins : e.isInsertion with
    | true => rfl
    | false =>
      rcases engineText_cases (range (linesOf source) e.startLine e.endLine) e.text with
        ⟨hsame, -⟩ | ⟨t, ending, -, -, hne, hother, hend⟩
      · rw [hsame]
      · obtain ⟨hnil, hkept⟩ := h e List.mem_cons_self hins hne
        rcases hend with ⟨-, hempty⟩ | ⟨hfeed, hown, -⟩
        · exact absurd hempty hnil
        · exact absurd (hown.trans (hkept hfeed)) hother

/-- An edit that ends with a line feed, in the place of a carriage return at the end of the file. -/
theorem spliced_ne_of_return {edits : List DoctorEdit} (hv : ∀ e ∈ edits, e.Valid)
    (hapart : edits.Pairwise fun a b => a.endLine < b.startLine) {e : DoctorEdit} (he : e ∈ edits)
    (hrep : e.isInsertion = false)
    (hret : endingOf (range (linesOf source) e.startLine e.endLine) = ['\r'])
    (hfeed : e.text.getLast? = some '\n') (cursor : Nat) :
    spliced engineText (linesOf source) last cursor edits ≠
      spliced withEnding (linesOf source) last cursor edits := by
  obtain ⟨u, v, r, hu, hv'⟩ : ∃ u v r,
      spliced engineText (linesOf source) last cursor edits = u ++ '\n' :: r ∧
        spliced withEnding (linesOf source) last cursor edits = v ++ '\r' :: r :=
    spliced_return hv hapart he hrep hret hfeed cursor
  intro heq
  rw [hu, hv'] at heq
  have := (List.append_inj' heq rfl).2
  exact absurd (List.cons.inj this).1 (by decide)

/-- Without such an edit, the first text that is put otherwise shows: what stands behind it has no
more line feeds than it should. -/
theorem spliced_ne_of_feeds {edits : List DoctorEdit} (hv : ∀ e ∈ edits, e.Valid)
    (hapart : edits.Pairwise fun a b => a.endLine < b.startLine)
    (h : ¬ KeepsEnding source edits)
    (hreturn : ¬ ∃ e ∈ edits, e.isInsertion = false ∧
      endingOf (range (linesOf source) e.startLine e.endLine) = ['\r'] ∧
        e.text.getLast? = some '\n') (cursor : Nat) :
    spliced engineText (linesOf source) last cursor edits ≠
      spliced withEnding (linesOf source) last cursor edits := by
  induction edits generalizing cursor with
  | nil => exact absurd (fun e he => absurd he List.not_mem_nil) h
  | cons e rest ih =>
    obtain ⟨hlater, hapart⟩ := List.pairwise_cons.mp hapart
    have hcount : (spliced engineText (linesOf source) last (e.endLine + 1) rest).count '\n' ≤
        (spliced withEnding (linesOf source) last (e.endLine + 1) rest).count '\n' :=
      count_spliced_le (fun e' he' hrep hret hfeed =>
        hreturn ⟨e', List.mem_cons_of_mem _ he', hrep, hret, hfeed⟩) (e.endLine + 1)
    have hnext : ¬ KeepsEnding source rest → spliced engineText (linesOf source) last
        (e.endLine + 1) rest ≠ spliced withEnding (linesOf source) last (e.endLine + 1) rest :=
      fun hrest => ih (fun e' he' => hv e' (List.mem_cons_of_mem _ he')) hapart hrest
        (fun hbad => hreturn (by
          obtain ⟨e', he', hbad⟩ := hbad
          exact ⟨e', List.mem_cons_of_mem _ he', hbad⟩)) _
    have hcons : KeepsEnding source (e :: rest) ↔ (e.isInsertion = false →
        endingOf (range (linesOf source) e.startLine e.endLine) ≠ [] → e.text ≠ [] ∧
          (e.text.getLast? = some '\n' →
            endingOf e.text = endingOf (range (linesOf source) e.startLine e.endLine))) ∧
        KeepsEnding source rest := List.forall_mem_cons
    rw [hcons, not_and] at h
    rw [spliced, spliced, List.append_assoc, List.append_assoc, Ne, List.append_cancel_left_eq]
    cases hins : e.isInsertion with
    | true =>
      rw [if_pos rfl, if_pos rfl, List.append_cancel_left_eq]
      exact hnext (h fun hrep => absurd (hins.symm.trans hrep) (by decide))
    | false =>
      rw [if_neg (by decide), if_neg (by decide)]
      rcases engineText_cases (range (linesOf source) e.startLine e.endLine) e.text with
        ⟨hsame, hkeeps⟩ | ⟨t, ending, hengine, hasked, hne, hother, hend⟩
      · rw [hsame, List.append_cancel_left_eq]
        exact hnext (h fun _ => hkeeps)
      · rw [hengine, hasked, List.append_assoc, List.append_assoc, List.append_cancel_left_eq]
        refine ending_ne ?_ ?_ hother hcount
        · rcases hend with ⟨hnil, -⟩ | ⟨-, -, hend⟩
          · exact .inl hnil
          · exact .inr hend
        · rcases endingOf_cases (range (linesOf source) e.startLine e.endLine) with
            ⟨-, hfeed | hfeed, -⟩ | ⟨-, hret⟩ | ⟨-, hno⟩
          · exact .inl hfeed
          · exact .inr (.inl hfeed)
          · have hle : e.startLine ≤ e.endLine := by
              simpa [DoctorEdit.isInsertion] using hins
            have hbeyond := length_le_of_return hle (hv e List.mem_cons_self).1 hret
            have hnil : ending = [] := by
              rcases hend with ⟨hnil, -⟩ | ⟨hfeed, -⟩
              · exact hnil
              · exact absurd ⟨e, List.mem_cons_self, hins, hret, hfeed⟩ hreturn
            exact .inr (.inr ⟨hret, hnil, spliced_beyond
              (fun e' he' => Nat.lt_of_le_of_lt hbeyond (hlater e' he')) _⟩)
          · exact absurd hno hne

/-- **The first text that is put otherwise shows**: what stands behind cannot make up for it. -/
theorem spliced_ne {edits : List DoctorEdit} (hv : ∀ e ∈ edits, e.Valid)
    (hapart : edits.Pairwise fun a b => a.endLine < b.startLine)
    (h : ¬ KeepsEnding source edits) (cursor : Nat) :
    spliced engineText (linesOf source) last cursor edits ≠
      spliced withEnding (linesOf source) last cursor edits := by
  by_cases hreturn : ∃ e ∈ edits, e.isInsertion = false ∧
      endingOf (range (linesOf source) e.startLine e.endLine) = ['\r'] ∧
        e.text.getLast? = some '\n'
  · obtain ⟨e, he, hrep, hret, hfeed⟩ := hreturn
    exact spliced_ne_of_return hv hapart he hrep hret hfeed cursor
  · exact spliced_ne_of_feeds hv hapart h hreturn cursor

end

/-! ## The engine -/

theorem le_foldl_max (l : List Nat) (n : Nat) :
    n ≤ l.foldl max n ∧ ∀ a ∈ l, a ≤ l.foldl max n := by
  induction l generalizing n with
  | nil => exact ⟨Nat.le_refl _, fun a ha => absurd ha List.not_mem_nil⟩
  | cons a l ih =>
    obtain ⟨hn, hl⟩ := ih (max n a)
    refine ⟨Nat.le_trans (Nat.le_max_left _ _) hn, fun b hb => ?_⟩
    rcases List.mem_cons.mp hb with rfl | hb
    · exact Nat.le_trans (Nat.le_max_right _ _) hn
    · exact hl b hb

/-- Sorted edits that the verdict lets pass are applied as they are asked for exactly when each
range keeps its line end. -/
theorem applyEdits_iff (source : Text) {edits : List DoctorEdit} (hv : ∀ e ∈ edits, e.Valid)
    (hs : Sorted edits) (hno : doctorEditsConflict edits = "") :
    doctorApplyEdits source edits = edited source edits ↔ KeepsEnding source edits := by
  have hapart : edits.Pairwise fun a b => a.endLine < b.startLine := by
    by_contra h
    exact (conflict_ne_empty hs).mpr h hno
  obtain ⟨hlines, hlast⟩ :=
    le_foldl_max (edits.map DoctorEdit.startLine) (linesOf source).length
  have hpos : ∀ e ∈ edits, 1 ≤ e.startLine := fun e he => (hv e he).1
  have hin : ∀ e ∈ edits, e.startLine ≤ lastLine (linesOf source) edits := fun e he =>
    hlast _ (List.mem_map_of_mem he)
  have hengine := applyFrom_spliced source hv hapart hpos hlines
  have hasked := spliced_eq withEnding (linesOf source) hv hapart (Nat.le_refl 1) hpos hin
  rw [Nat.add_sub_cancel] at hasked
  rw [doctorApplyEdits, if_neg (fun h => h hno), sort_sorted hs, edited, ← hasked]
  refine ⟨fun h => ?_, fun h => hengine.trans ?_⟩
  · by_contra hother
    exact spliced_ne hv hapart hother 1 (hengine.symm.trans h)
  · exact spliced_same h 1

/-- **The engine does what it should with a list of edits exactly when the list is sorted and,
unless two of the edits clash, does not have an insertion behind the replacement of its line and
replaces each range with a line end by a text that is not empty and has no other line end.** -/
theorem fixes_iff (source : Text) (edits : List DoctorEdit) (hv : ∀ e ∈ edits, e.Valid) :
    Fixes source edits ↔
      Sorted edits ∧ (Clash edits ∨ ¬ InsertionBehind edits ∧ KeepsEnding source edits) := by
  constructor
  · intro h
    have hs := (sort_perm_iff edits).mp h.perm
    refine ⟨hs, ?_⟩
    by_cases hclash : Clash edits
    · exact Or.inl hclash
    · have hno : doctorEditsConflict edits = "" := by_contra fun hne => hclash (h.verdict.mp hne)
      refine Or.inr ⟨fun hbehind => ?_, (applyEdits_iff source hv hs hno).mp (h.applied hclash)⟩
      exact (conflict_iff hs hv).mpr (Or.inr hbehind) hno
  · rintro ⟨hs, hgood⟩
    have hverdict : doctorEditsConflict edits ≠ "" ↔ Clash edits := by
      rw [conflict_iff hs hv]
      refine ⟨fun h => ?_, Or.inl⟩
      rcases h with hclash | hbehind
      · exact hclash
      · exact hgood.resolve_right fun h => h.1 hbehind
    refine ⟨(sort_perm_iff edits).mpr hs, ?_, hverdict, fun hno => ?_⟩
    · rw [sort_sorted hs]
      exact hs
    · have hkeeps := (hgood.resolve_left hno).2
      exact (applyEdits_iff source hv hs (by_contra fun h => hno (hverdict.mp h))).mpr hkeeps

/-- A line is put in front of the first one, which keeps its CRLF, and the last one has none. -/
theorem fixes_two_lines :
    Fixes ['a', '\r', '\n', 'b', '\n', 'c']
      [⟨1, 0, ['x', '\n'], "insert"⟩, ⟨1, 1, ['y'], "replace"⟩, ⟨3, 3, ['z'], "replace"⟩] :=
  (fixes_iff _ _ (by decide)).mpr ⟨by decide, Or.inr (by decide)⟩

/-- Of two edits that come in the other order, the first is lost. Blanks on a line of their own take
its line end with them. -/
theorem fixes_reversed_lost :
    doctorApplyEdits ['a', '\n', 'b', '\n'] [⟨2, 2, ['z'], "replace"⟩, ⟨1, 1, ['y'], "replace"⟩] =
        ['y', '\n', 'b', '\n'] ∧
      ¬ Fixes ['a', '\n', 'b', '\n'] [⟨2, 2, ['z'], "replace"⟩, ⟨1, 1, ['y'], "replace"⟩] ∧
    doctorApplyEdits ['a', '\n', ' ', '\n', 'b', '\n'] [⟨2, 2, [], "safe"⟩] =
        ['a', '\n', 'b', '\n'] ∧
      ¬ Fixes ['a', '\n', ' ', '\n', 'b', '\n'] [⟨2, 2, [], "safe"⟩] :=
  ⟨by decide, fun h => absurd h.perm.length_eq (by decide), by decide,
    fun h => absurd (h.applied (by decide)) (by decide)⟩

end Tools.Doctor
