import Orbit.Runtime.Proof.Database

/-!
# What the reads return

The reads of `runtime/database.c` over all rows, and when the text that they return is the JSON of
the rows (`readArray_reads`, `readObject_reads`).
-/

namespace Runtime.Database

open Lib.Json (Value Elems Fields written writtenField joined joined_cons read read_write)
open Json (Text nul jsonPutChar cString)

/-! ## Rows as values -/

def Column.field (col : Column) : Text × Value := (col.name.getD [], .str (col.text.getD []))

def rowValue (row : Row) : Value := .obj (.ofList (row.map Column.field))

def rowsValue (rows : List Row) : Value := .arr (.ofList (rows.map rowValue))

/-- No name and no text has a NUL. -/
def Whole (row : Row) : Prop := ∀ col ∈ row, nul ∉ col.name.getD [] ∧ nul ∉ col.text.getD []

/-- What the writer makes of a row when there is room. -/
def rowText (row : Row) : Text := (rowUnits row).flatten

/-- A name or a text as C sees it. -/
def Column.cut (col : Column) : Text × Value :=
  (cString (col.name.getD []), .str (cString (col.text.getD [])))

theorem stringUnits_flatten (s : Text) :
    (stringUnits s).flatten = '"' :: ((cString s).flatMap jsonPutChar ++ ['"']) := by
  simp [stringUnits, bodyUnits, List.flatMap]

theorem columnUnits_flatten (first : Bool) (row : Row) : (columnUnits first row).flatten =
    joined first (row.map fun col => writtenField jsonPutChar col.cut) := by
  induction row generalizing first with
  | nil => cases first <;> rfl
  | cons col cols ih =>
    rw [columnUnits, List.flatten_append, ih, List.map_cons, joined_cons, Column.units,
      List.flatten_append, List.flatten_append, List.flatten_cons, stringUnits_flatten,
      stringUnits_flatten, writtenField, Column.cut, written]
    cases first <;> simp [Lib.Json.write]

theorem rowText_eq (row : Row) : rowText row = '\x7b' ::
    (joined true (row.map fun col => writtenField jsonPutChar col.cut) ++ ['\x7d']) := by
  simp only [rowText, rowUnits, List.flatten_cons, List.flatten_append, columnUnits_flatten,
    List.flatten_nil, List.append_nil, List.singleton_append]

theorem written_rowValue (row : Row) : written jsonPutChar (rowValue row) = '\x7b' ::
    (joined true (row.map fun col => writtenField jsonPutChar col.field) ++ ['\x7d']) := by
  rw [rowValue, Lib.Json.written_obj, List.map_map]
  rfl

theorem rowText_whole {row : Row} (h : Whole row) :
    rowText row = written jsonPutChar (rowValue row) := by
  rw [rowText_eq, written_rowValue, List.map_congr_left]
  intro col hcol
  obtain ⟨hname, htext⟩ := h col hcol
  rw [Column.cut, Column.field, Json.cString_self hname, Json.cString_self htext]

theorem rowUnits_isUnit {row : Row} {u : Text} (h : u ∈ rowUnits row) : IsUnit u := by
  have hstring : ∀ {s : Text}, u ∈ stringUnits s → IsUnit u := by
    intro s hu
    simp only [stringUnits, bodyUnits, List.mem_cons, List.mem_append, List.mem_map,
      List.not_mem_nil, or_false] at hu
    obtain rfl | ⟨c, -, rfl⟩ | rfl := hu
    · exact isUnit_quote
    · exact isUnit_jsonPutChar
    · exact isUnit_quote
  have hcolumns : ∀ {row : Row} {first : Bool}, u ∈ columnUnits first row → IsUnit u := by
    intro row
    induction row with
    | nil => exact fun hu => absurd hu List.not_mem_nil
    | cons col cols ih =>
      intro first hu
      rw [columnUnits, Column.units] at hu
      simp only [List.mem_append, List.mem_cons] at hu
      obtain (hu | hu | rfl | hu) | hu := hu
      · cases first with
        | true => cases hu
        | false =>
          rw [List.mem_singleton.mp hu]
          exact isUnit_char (by decide) (by decide)
      · exact hstring hu
      · exact isUnit_char (by decide) (by decide)
      · exact hstring hu
      · exact ih hu
  simp only [rowUnits, List.mem_cons, List.mem_append, List.not_mem_nil, or_false] at h
  obtain rfl | h | rfl := h
  · exact isUnit_char (by decide) (by decide)
  · exact hcolumns h
  · exact isUnit_char (by decide) (by decide)

theorem rowText_no_nul (row : Row) : nul ∉ rowText row :=
  Pieces.no_nul ⟨rowUnits row, rfl, fun _ hu => rowUnits_isUnit hu⟩

theorem jsonPutChar_pos (c : Char) : 1 ≤ (jsonPutChar c).length := by
  obtain ⟨-, h⟩ | ⟨-, x, h, -⟩ | ⟨-, -, -, -, h⟩ := jsonPutChar_cases c <;> simp [h]

theorem cString_flatMap_le (s : Text) :
    ((cString s).flatMap jsonPutChar).length ≤ (s.flatMap jsonPutChar).length := by
  obtain ⟨rest, hrest⟩ : cString s <+: s := List.takeWhile_prefix _
  conv_rhs => rw [← hrest]
  rw [List.flatMap_append, List.length_append]
  omega

theorem cString_flatMap_lt {s : Text} (h : nul ∈ s) :
    ((cString s).flatMap jsonPutChar).length < (s.flatMap jsonPutChar).length := by
  induction s with
  | nil => cases h
  | cons c s ih =>
    rw [cString, List.takeWhile_cons, List.flatMap_cons, List.length_append]
    have hpos := jsonPutChar_pos c
    by_cases hc : c = nul
    · rw [if_neg (by simp [hc])]
      simp only [List.flatMap_nil, List.length_nil]
      omega
    · rw [if_pos (by simp [hc]), List.flatMap_cons, List.length_append]
      have hs : nul ∈ s := (List.mem_cons.mp h).resolve_left (Ne.symm hc)
      exact Nat.add_lt_add_left (ih hs) _

theorem Column.cut_length (col : Column) :
    (writtenField jsonPutChar col.cut).length ≤ (writtenField jsonPutChar col.field).length := by
  have hname := cString_flatMap_le (col.name.getD [])
  have htext := cString_flatMap_le (col.text.getD [])
  simp only [writtenField, Column.cut, Column.field, written, Lib.Json.write, List.length_cons,
    List.length_append]
  omega

theorem rowText_length_le (row : Row) :
    (rowText row).length ≤ (written jsonPutChar (rowValue row)).length := by
  have := Lib.Json.joined_length_le true fun col (_ : col ∈ row) => Column.cut_length col
  simp only [rowText_eq, written_rowValue, List.length_cons, List.length_append]
  omega

theorem rowText_length_lt {row : Row} (h : ¬ Whole row) :
    (rowText row).length < (written jsonPutChar (rowValue row)).length := by
  simp only [Whole, not_forall] at h
  obtain ⟨col, hcol, hnul⟩ := h
  have hlt : (writtenField jsonPutChar col.cut).length <
      (writtenField jsonPutChar col.field).length := by
    have hname := cString_flatMap_le (col.name.getD [])
    have htext := cString_flatMap_le (col.text.getD [])
    simp only [writtenField, Column.cut, Column.field, written, Lib.Json.write, List.length_cons,
      List.length_append]
    rcases not_and_or.mp hnul with hnul | hnul
    · have := cString_flatMap_lt (not_not.mp hnul)
      omega
    · have := cString_flatMap_lt (not_not.mp hnul)
      omega
  have := Lib.Json.joined_length_lt true (fun col (_ : col ∈ row) => Column.cut_length col)
    hcol hlt
  simp only [rowText_eq, written_rowValue, List.length_cons, List.length_append]
  omega

theorem rowText_length (row : Row) : 2 ≤ (rowText row).length := by
  rw [rowText_eq]
  simp only [List.length_cons, List.length_append]
  omega

/-- An escape is not the last unit of a row. -/
theorem HexEnds.lt_rowText {n : Nat} {row : Row} (h : HexEnds n (rowUnits row)) :
    n < (rowText row).length := by
  rw [rowText, rowUnits] at *
  rw [← List.cons_append] at *
  rw [List.flatten_append, List.length_append]
  rcases hexEnds_append.mp h with h | ⟨m, h, -⟩
  · have := h.le
    simp only [List.flatten_cons, List.flatten_nil, List.append_nil, List.length_singleton] at *
    omega
  · exact absurd (hexEnds_singleton.mp h).1 (by decide)

/-! ## One row -/

section
variable (row : Row) {maxLen : Nat} (b : Buffer)

theorem orbitDbRowToJson_fits (h : (rowText row).length + 2 ≤ maxLen) :
    (orbitDbRowToJson row maxLen b).bytes = b.bytes ++ rowText row := by
  have h2 := rowText_length row
  obtain ⟨r, hw, hr⟩ := orbitDbRowToJson_writes row (by omega : 3 ≤ maxLen) b
  rw [hr]
  refine hw.all ?_ fun hhex => ?_
  · rw [← rowText]
    omega
  · have := hhex.lt_rowText
    omega

theorem orbitDbRowToJson_short (h : maxLen < (rowText row).length + 2) :
    (orbitDbRowToJson row maxLen b).pos < b.pos + (rowText row).length := by
  have h2 := rowText_length row
  by_cases h3 : maxLen < 3
  · rw [orbitDbRowToJson_small row h3]
    omega
  · obtain ⟨r, hw, hr⟩ := orbitDbRowToJson_writes row (by omega : 3 ≤ maxLen) b
    have hle := hw.le
    have hpos : (orbitDbRowToJson row maxLen b).pos = r.pos := by rw [hr]; rfl
    omega

theorem orbitDbRowToJson_formed (h : Formed b) : Formed (orbitDbRowToJson row maxLen b) := by
  by_cases h3 : maxLen < 3
  · rwa [orbitDbRowToJson_small row h3]
  · obtain ⟨r, hw, hr⟩ := orbitDbRowToJson_writes row (by omega : 3 ≤ maxLen) b
    rw [hr]
    exact hw.formed h

end

theorem isUnit_comma : IsUnit [','] := isUnit_char (by decide) (by decide)

theorem separated_bytes (st : Scan) :
    (separated st).bytes = st.buf.bytes ++ if st.first then [] else [','] := by
  rw [separated]
  split <;> simp

theorem separated_formed {st : Scan} (h : Formed st.buf) : Formed (separated st) := by
  rw [separated]
  split
  · exact h
  · exact h.put isUnit_comma

/-! ## All rows -/

section
variable (grants : Nat → Bool)

/-- Of every row, in the state that it is written in; `broken` where the arena has no block for
it. -/
def Every (p : Scan → Row → Prop) (broken : Prop) : List Row → Scan → Prop
  | [], _ => True
  | row :: rows, st =>
    match makeRoom grants st with
    | none => broken
    | some st => p st row ∧ Every p broken rows (appendRow st row)

/-- The row fits in the bytes that are left for it, with two to spare. -/
def Fits (st : Scan) (row : Row) : Prop := (rowText row).length + 2 ≤ room st

variable {grants} {st st' : Scan} {rows : List Row}

theorem makeRoom_bytes (h : makeRoom grants st = some st') :
    st'.buf.bytes = st.buf.bytes ∧ st'.first = st.first := by
  rw [makeRoom] at h
  dsimp only at h
  split_ifs at h
  · rw [← Option.some.inj h]
    exact ⟨rfl, rfl⟩
  · rw [← Option.some.inj h]
    exact ⟨rfl, rfl⟩

theorem readRows_all (h : Every grants Fits False rows st) :
    (readRows grants rows st).buf.bytes =
      st.buf.bytes ++ joined st.first (rows.map rowText) := by
  induction rows generalizing st with
  | nil => cases hf : st.first <;> simp [readRows, joined]
  | cons row rows ih =>
    cases hroom : makeRoom grants st with
    | none =>
      rw [Every, hroom] at h
      cases h
    | some st₁ =>
      rw [Every, hroom] at h
      obtain ⟨hbytes, hfirst⟩ := makeRoom_bytes hroom
      have hrow : (appendRow st₁ row).buf.bytes = (separated st₁).bytes ++ rowText row :=
        orbitDbRowToJson_fits row _ h.1
      rw [readRows, hroom]
      dsimp only
      rw [ih h.2, hrow, separated_bytes, hbytes, hfirst, List.map_cons, joined_cons]
      simp only [List.append_assoc]
      rfl

theorem readRows_pos_le (st : Scan) (rows : List Row) : (readRows grants rows st).buf.pos ≤
    st.buf.pos + (joined st.first (rows.map rowText)).length := by
  induction rows generalizing st with
  | nil => exact Nat.le_add_right _ _
  | cons row rows ih =>
    rw [readRows]
    split
    · exact Nat.le_add_right _ _
    · rename_i st₁ hroom
      obtain ⟨hbytes, hfirst⟩ := makeRoom_bytes hroom
      have hsep : (separated st₁).pos = st.buf.pos + (if st.first then [] else [',']).length := by
        rw [Buffer.pos, separated_bytes, List.length_append, hbytes, hfirst, Buffer.pos]
      have hrow : (appendRow st₁ row).buf.pos ≤ (separated st₁).pos + (rowText row).length := by
        by_cases hfits : Fits st₁ row
        · rw [Buffer.pos, appendRow, orbitDbRowToJson_fits row _ hfits, List.length_append,
            Buffer.pos]
        · exact (orbitDbRowToJson_short row _ (Nat.lt_of_not_le hfits)).le
      have := ih (appendRow st₁ row)
      rw [List.map_cons, joined_cons, List.length_append, List.length_append]
      have hlater : (appendRow st₁ row).first = false := rfl
      rw [hlater] at this
      omega

theorem readRows_short (h : ¬ Every grants Fits False rows st) : (readRows grants rows st).buf.pos <
    st.buf.pos + (joined st.first (rows.map rowText)).length := by
  induction rows generalizing st with
  | nil => exact absurd trivial h
  | cons row rows ih =>
    have h2 := rowText_length row
    rw [Every] at h
    rw [readRows, List.map_cons, joined_cons, List.length_append, List.length_append]
    split
    · omega
    · rename_i st₁ hroom
      rw [hroom] at h
      dsimp only at h
      obtain ⟨hbytes, hfirst⟩ := makeRoom_bytes hroom
      have hsep : (separated st₁).pos = st.buf.pos + (if st.first then [] else [',']).length := by
        rw [Buffer.pos, separated_bytes, List.length_append, hbytes, hfirst, Buffer.pos]
      have hlater : (appendRow st₁ row).first = false := rfl
      by_cases hfits : Fits st₁ row
      · have hrow : (appendRow st₁ row).buf.pos = (separated st₁).pos + (rowText row).length := by
          rw [Buffer.pos, appendRow, orbitDbRowToJson_fits row _ hfits, List.length_append,
            Buffer.pos]
        have := ih fun hrest => h ⟨hfits, hrest⟩
        rw [hlater] at this
        omega
      · have hrow : (appendRow st₁ row).buf.pos < (separated st₁).pos + (rowText row).length :=
          orbitDbRowToJson_short row _ (Nat.lt_of_not_le hfits)
        have : (readRows grants rows (appendRow st₁ row)).buf.pos ≤ (appendRow st₁ row).buf.pos +
            (joined false (rows.map rowText)).length := readRows_pos_le _ _
        omega

theorem readRows_formed (h : Formed st.buf) : Formed (readRows grants rows st).buf := by
  induction rows generalizing st with
  | nil => exact h
  | cons row rows ih =>
    rw [readRows]
    split
    · exact h
    · rename_i st₁ hroom
      have h₁ : Formed st₁.buf := by
        rwa [Formed, (makeRoom_bytes hroom).1]
      exact ih (orbitDbRowToJson_formed row _ (separated_formed h₁))

/-- The text of all rows. -/
def rowsText (rows : List Row) : Text := '[' :: (joined true (rows.map rowText) ++ [']'])

theorem written_rowsValue (rows : List Row) : written jsonPutChar (rowsValue rows) =
    '[' :: (joined true (rows.map fun row => written jsonPutChar (rowValue row)) ++ [']']) := by
  rw [rowsValue, Lib.Json.written_arr, List.map_map]
  rfl

theorem rowsText_whole (h : ∀ row ∈ rows, Whole row) :
    rowsText rows = written jsonPutChar (rowsValue rows) := by
  rw [rowsText, written_rowsValue, List.map_congr_left fun row hrow => rowText_whole (h row hrow)]

theorem rowsText_length_le (rows : List Row) :
    (rowsText rows).length ≤ (written jsonPutChar (rowsValue rows)).length := by
  have := Lib.Json.joined_length_le true fun row (_ : row ∈ rows) => rowText_length_le row
  rw [rowsText, written_rowsValue]
  simp only [List.length_cons, List.length_append]
  omega

theorem rowsText_length_lt {row : Row} (hrow : row ∈ rows) (h : ¬ Whole row) :
    (rowsText rows).length < (written jsonPutChar (rowsValue rows)).length := by
  have := Lib.Json.joined_length_lt true (fun row (_ : row ∈ rows) => rowText_length_le row)
    hrow (rowText_length_lt h)
  rw [rowsText, written_rowsValue]
  simp only [List.length_cons, List.length_append]
  omega

theorem rowsText_no_nul (rows : List Row) : nul ∉ rowsText rows := by
  simp only [rowsText, List.mem_cons, List.mem_append, List.not_mem_nil, or_false, not_or]
  refine ⟨by decide, ?_, by decide⟩
  apply Lib.Json.not_mem_joined (by decide)
  intro t ht
  obtain ⟨row, -, rfl⟩ := List.mem_map.mp ht
  exact rowText_no_nul row

theorem read_written (v : Value) : read (written jsonPutChar v) = some v := by
  have hread : read (written jsonPutChar v ++ []) = some v :=
    read_write jsonPutChar_escapes.escapes v rfl (by simp [Lib.Json.Ends])
  rwa [List.append_nil] at hread

/-- A text that reads as a value is not shorter than the written one. -/
theorem written_le_of_text {b : Buffer} {v : Value} (hb : Formed b)
    (h : read b.text = some v) : (written jsonPutChar v).length ≤ b.pos := by
  have hle := Lib.Json.write_le_of_read jsonPutChar_escapes hb.spelled h
  have hcut : b.text.length ≤ b.bytes.length := (List.takeWhile_prefix _).length_le
  exact hle.trans hcut

theorem isUnit_bracket : IsUnit [']'] := isUnit_char (by decide) (by decide)

theorem closed_bytes (h : Every grants Fits False rows opened) :
    ((readRows grants rows opened).buf.put [']']).bytes = rowsText rows := by
  rw [Buffer.put_bytes, readRows_all h]
  rfl

theorem closed_pos_lt (h : ¬ Every grants Fits False rows opened) :
    ((readRows grants rows opened).buf.put [']']).pos < (rowsText rows).length := by
  have hshort := readRows_short h
  simp only [Buffer.put_pos, rowsText, List.length_cons, List.length_append, List.length_nil]
  have hopen : opened.buf.pos = 1 := rfl
  have hfirst : opened.first = true := rfl
  rw [hfirst] at hshort
  omega

/-- **An array is the JSON of the rows** exactly when the rows have no NUL and all fit. -/
theorem readArray_reads (grants : Nat → Bool) (rows : List Row) :
    read (readArray grants rows).text = some (rowsValue rows) ↔
      rows = [] ∨ (grants 0 = true ∧ (∀ row ∈ rows, Whole row) ∧
        Every grants Fits False rows opened) := by
  have hbracket : Formed opened.buf :=
    .inl ⟨[['[']], rfl, fun u hu => by
      rw [List.mem_singleton.mp hu]
      exact isUnit_char (by decide) (by decide)⟩
  have hclosed : Formed ((readRows grants rows opened).buf.put [']']) :=
    (readRows_formed hbracket).put isUnit_bracket
  have all : (∀ row ∈ rows, Whole row) → Every grants Fits False rows opened →
      grants 0 = true → read (readArray grants rows).text = some (rowsValue rows) := by
    intro hwhole hfits hg
    have htext : (readArray grants rows).text = written jsonPutChar (rowsValue rows) := by
      rw [readArray, if_pos hg, Buffer.text]
      change cString ((readRows grants rows opened).buf.put [']']).bytes = _
      rw [closed_bytes hfits, Json.cString_self (rowsText_no_nul rows), rowsText_whole hwhole]
    rw [htext, read_written]
  by_cases hg : grants 0 = true
  · constructor
    · intro h
      rw [readArray, if_pos hg] at h
      have hpos := written_le_of_text (b := ((readRows grants rows opened).buf.put [']'])) hclosed h
      have hle := rowsText_length_le rows
      refine .inr ⟨hg, fun row hrow => ?_, ?_⟩
      · by_contra hno
        have hlt := rowsText_length_lt hrow hno
        by_cases hfits : Every grants Fits False rows opened
        · rw [Buffer.pos, closed_bytes hfits] at hpos
          omega
        · have := closed_pos_lt hfits
          omega
      · by_contra hfits
        have := closed_pos_lt hfits
        omega
    · rintro (rfl | ⟨-, hwhole, hfits⟩)
      · exact all (by simp) trivial hg
      · exact all hwhole hfits hg
  · have hpair : readArray grants rows = literal ['[', ']'] := if_neg hg
    rw [hpair]
    constructor
    · intro h
      have hpos := written_le_of_text (.inl ⟨[['['], [']']], rfl, fun u hu => by
        rcases List.mem_pair.mp hu with rfl | rfl <;> exact isUnit_char (by decide) (by decide)⟩) h
      left
      cases rows with
      | nil => rfl
      | cons row rows =>
        have hrow := rowText_length row
        have hle := rowsText_length_le (row :: rows)
        rw [rowsText, List.map_cons, joined_cons] at hle
        simp only [List.length_cons, List.length_append] at hle
        have h2 : (literal ['[', ']']).pos = 2 := rfl
        omega
    · rintro (rfl | ⟨hg', -⟩)
      · exact read_written (rowsValue [])
      · exact absurd hg' hg

/-- **An object is the JSON of the first row** exactly when the row has no NUL and fits. -/
theorem readObject_reads (grants : Nat → Bool) (row : Row) (rows : List Row) :
    read (readObject grants (row :: rows)).text = some (rowValue row) ↔
      grants 0 = true ∧ Whole row ∧ (rowText row).length + 2 ≤ 4096 := by
  rw [readObject]
  have h2 := rowText_length row
  have hle := rowText_length_le row
  by_cases hg : grants 0 = true
  · rw [if_pos hg]
    constructor
    · intro h
      have hpos := written_le_of_text (orbitDbRowToJson_formed row _ (.inl ⟨[], rfl, by simp⟩)) h
      have hfits : (rowText row).length + 2 ≤ 4096 := by
        by_contra hno
        have := orbitDbRowToJson_short row { bytes := [], capacity := 4096, writes := [] }
          (Nat.lt_of_not_le hno)
        have h0 : ({ bytes := [], capacity := 4096, writes := [] } : Buffer).pos = 0 := rfl
        omega
      refine ⟨hg, ?_, hfits⟩
      by_contra hno
      have := rowText_length_lt hno
      rw [Buffer.pos, orbitDbRowToJson_fits row _ hfits, List.nil_append] at hpos
      omega
    · rintro ⟨-, hwhole, hfits⟩
      rw [Buffer.text, orbitDbRowToJson_fits row _ hfits, List.nil_append,
        Json.cString_self (rowText_no_nul row), rowText_whole hwhole, read_written]
  · rw [if_neg hg]
    constructor
    · intro h
      have hpos := written_le_of_text (b := literal []) (.inl ⟨[], rfl, by simp⟩) h
      have h0 : (literal []).pos = 0 := rfl
      omega
    · exact fun h => absurd h.1 hg

/-- The text is the object of the first row; without a row it is empty. -/
def IsFirst (text : Text) : List Row → Prop
  | [] => text = []
  | row :: _ => read text = some (rowValue row)

/-- **The reads return the rows** exactly when nothing has a NUL, the arena has the blocks and every
row fits in the bytes that are left for it. -/
theorem reads_rows_iff (grants : Nat → Bool) (rows : List Row) :
    (∀ f ∈ [orbitDbAll, orbitDbWhereBound, orbitDbOrder],
      (read (f grants rows).text = some (rowsValue rows) ↔
        rows = [] ∨ (grants 0 = true ∧ (∀ row ∈ rows, Whole row) ∧
          Every grants Fits False rows opened))) ∧
    (∀ f ∈ [orbitDbGet, orbitDbFirst],
      (IsFirst (f grants rows).text rows ↔
        ∀ row ∈ rows.head?, grants 0 = true ∧ Whole row ∧ (rowText row).length + 2 ≤ 4096)) := by
  constructor
  · intro f hf
    simp only [List.mem_cons, List.not_mem_nil, or_false] at hf
    obtain rfl | rfl | rfl := hf <;> exact readArray_reads grants rows
  · have hobject : IsFirst (readObject grants rows).text rows ↔
        ∀ row ∈ rows.head?, grants 0 = true ∧ Whole row ∧ (rowText row).length + 2 ≤ 4096 := by
      cases rows with
      | nil => exact ⟨fun _ _ h => absurd h (by simp), fun _ => rfl⟩
      | cons row rows =>
        rw [IsFirst, readObject_reads]
        exact ⟨fun h _ he => Option.some.inj he ▸ h, fun h => h row rfl⟩
    intro f hf
    simp only [List.mem_cons, List.not_mem_nil, or_false] at hf
    obtain rfl | rfl := hf <;> exact hobject

theorem rowText_replicate (n : Nat) :
    (rowText [⟨some ['k'], some (List.replicate n 'a')⟩]).length = n + 8 := by
  have hcut : cString (List.replicate n 'a') = List.replicate n 'a' :=
    Json.cString_self fun h => absurd (List.eq_of_mem_replicate h) (by decide)
  have hk : cString ['k'] = ['k'] := rfl
  have ha : jsonPutChar 'a' = ['a'] := rfl
  have hkk : jsonPutChar 'k' = ['k'] := rfl
  simp [rowText_eq, joined, writtenField, Column.cut, written, Lib.Json.write, hcut, hk, ha, hkk,
    List.flatMap_replicate]

/-- A row of 5008 bytes does not fit. -/
theorem get_cuts_row : read (orbitDbGet (fun _ => true)
      [[⟨some ['k'], some (List.replicate 5000 'a')⟩]]).text ≠
    some (rowValue [⟨some ['k'], some (List.replicate 5000 'a')⟩]) := by
  rw [orbitDbGet, ne_eq, readObject_reads, rowText_replicate]
  omega

end

end Runtime.Database
