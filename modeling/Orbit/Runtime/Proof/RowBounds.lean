import Orbit.Runtime.Proof.Rows

/-!
# Where the reads write

Every index that the reads of `runtime/database.c` write is inside the buffer of its time, and the
text holds no NUL, exactly when no escape `\u00xx` of a row ends two bytes in front of the end of the
buffer (`readArray_safe`, `readObject_safe`).
-/

namespace Runtime.Database

open Json (Text nul jsonPutChar cString)

/-- Every index written is below the capacity of its time, and no byte of the text is a NUL. -/
def Safe (b : Buffer) : Prop := (∀ w ∈ b.writes, w.1 < w.2) ∧ nul ∉ b.bytes

/-- What a buffer is between rows: at least its bracket is written, and there is room for the last
bracket and the NUL. Its capacity is a power of two. -/
structure Spare (b : Buffer) : Prop where
  power : ∃ k, 13 ≤ k ∧ k ≤ 63 ∧ b.capacity = 2 ^ k
  started : 1 ≤ b.pos
  spare : b.pos + 2 ≤ b.capacity

/-- No escape of the row ends where the row has to end. -/
def Clean (st : Scan) (row : Row) : Prop := ¬ HexEnds (room st - 2) (rowUnits row)

theorem Spare.capacity_le {b : Buffer} (h : Spare b) :
    8192 ≤ b.capacity ∧ b.capacity ≤ 9223372036854775808 := by
  obtain ⟨k, hlo, hhi, hk⟩ := h.power
  have h13 : 2 ^ 13 ≤ 2 ^ k := Nat.pow_le_pow_right (by decide) hlo
  have h63 : 2 ^ k ≤ 2 ^ 63 := Nat.pow_le_pow_right (by decide) hhi
  rw [hk]
  exact ⟨h13, h63⟩

theorem size_of_lt {n : Nat} (h : n < 18446744073709551616) : size n = n := by
  rw [size]
  exact Nat.mod_eq_of_lt h

theorem sizeSub_of_le {a b : Nat} (h : b ≤ a) (ha : a < 18446744073709551616) :
    sizeSub a b = a - b := by
  rw [sizeSub, size]
  omega

section
variable {grants : Nat → Bool} {st st' : Scan}

/-! ## What stays wrong -/

theorem safe_mono {b r : Buffer} (hbytes : b.bytes <+: r.bytes) (hwrites : b.writes ⊆ r.writes)
    (h : Safe r) : Safe b :=
  ⟨fun w hw => h.1 w (hwrites hw), fun hn => h.2 (hbytes.subset hn)⟩

theorem separated_mono (st : Scan) :
    st.buf.bytes <+: (separated st).bytes ∧ st.buf.writes ⊆ (separated st).writes := by
  rw [separated]
  split
  · exact ⟨List.prefix_rfl, List.Subset.refl _⟩
  · exact ⟨List.prefix_append _ _, fun w hw => Buffer.mem_store.mpr (.inl hw)⟩

/-! ## One row -/

/-- The buffer has at least 2048 bytes left: a capacity that cannot be doubled is refused. -/
theorem Spare.makeRoom (hs : Spare st.buf) (h : makeRoom grants st = some st') :
    Spare st'.buf ∧ st'.buf.pos + 2048 ≤ st'.buf.capacity ∧ (Safe st'.buf ↔ Safe st.buf) := by
  obtain ⟨hlo, hhi⟩ := hs.capacity_le
  have hspare := hs.spare
  rw [Database.makeRoom] at h
  dsimp only at h
  rw [size_of_lt (by omega : st.buf.pos + 2048 < 18446744073709551616)] at h
  split_ifs at h with hfull hgrant
  · obtain rfl := Option.some.inj h
    obtain ⟨hne, -⟩ := hgrant
    obtain ⟨k, hk13, hk63, hk⟩ := hs.power
    have htop : k ≠ 63 := by
      rintro rfl
      rw [hk, size] at hne
      exact hne (by decide)
    have hpow : 2 ^ k ≤ 2 ^ 62 := Nat.pow_le_pow_right (by decide) (by omega)
    have hdouble : size (st.buf.capacity * 2) = st.buf.capacity * 2 := by
      apply size_of_lt
      omega
    refine ⟨⟨⟨k + 1, by omega, by omega, ?_⟩, hs.started, ?_⟩, ?_, ?_⟩
    · dsimp only
      rw [hdouble, hk, pow_succ]
    · dsimp only [Buffer.pos]
      rw [hdouble]
      exact hspare.trans (by omega)
    · dsimp only [Buffer.pos]
      rw [hdouble]
      have : st.buf.bytes.length + 2 ≤ st.buf.capacity := hspare
      omega
    · rw [Safe, Safe]
      refine and_congr_left' ⟨fun hall w hw => hall w (List.mem_append_left _ hw), ?_⟩
      intro hall w hw
      rcases List.mem_append.mp hw with hw | hw
      · exact hall w hw
      · obtain ⟨i, hi, rfl⟩ := List.mem_map.mp hw
        have := List.mem_range.mp hi
        dsimp only
        rw [hdouble]
        omega
  · obtain rfl := Option.some.inj h
    exact ⟨hs, Nat.le_of_not_lt hfull, Iff.rfl⟩

/-- A row keeps what a buffer is between rows, and what is wrong of it is in the row. -/
theorem Spare.appendRow (hs : Spare st.buf) (h : st.buf.pos + 2048 ≤ st.buf.capacity) (row : Row) :
    Spare (appendRow st row).buf ∧ (Safe (appendRow st row).buf ↔
      Safe st.buf ∧ ¬ HexEnds (room st - 2) (rowUnits row)) := by
  obtain ⟨hlo, hhi⟩ := hs.capacity_le
  obtain ⟨hpre, hkept⟩ := separated_mono st
  have hcap : (separated st).capacity = st.buf.capacity := by
    rw [separated]
    split <;> rfl
  have hsepLe : st.buf.pos ≤ (separated st).pos := hpre.length_le
  have hsepLt : (separated st).pos ≤ st.buf.pos + 1 := by
    rw [separated]
    split
    · omega
    · rw [Buffer.put_pos]
      rfl
  have hsepSafe : Safe (separated st) ↔ Safe st.buf := by
    refine ⟨safe_mono hpre hkept, fun hsafe => ?_⟩
    rw [separated]
    split
    · exact hsafe
    · refine ⟨fun w hw => ?_, ?_⟩
      · rcases Buffer.mem_store.mp hw with hw | ⟨-, hlt, hc⟩
        · exact hsafe.1 w hw
        · rw [List.length_singleton] at hlt
          omega
      · rw [Buffer.put_bytes, List.mem_append, not_or]
        exact ⟨hsafe.2, isUnit_comma.no_nul⟩
  have hroom : room st = st.buf.capacity - (separated st).pos := by
    rw [room, hcap, sizeSub_of_le (by omega) (by omega)]
  obtain ⟨r, hw, hr⟩ := orbitDbRowToJson_writes row (by omega : 3 ≤ room st) (separated st)
  have hrow : (Database.appendRow st row).buf = r.store [nul] := hr
  have hle := hw.le
  have hgrows : (separated st).pos ≤ r.pos := hw.grows.length_le
  have hrcap : r.capacity = st.buf.capacity := hw.capacity.trans hcap
  rw [hrow]
  refine ⟨⟨hrcap ▸ hs.power, hs.started.trans (hsepLe.trans hgrows), ?_⟩, ?_⟩
  · change r.pos + 2 ≤ r.capacity
    omega
  rw [← hsepSafe]
  have hnul := hw.hasNul
  rw [show (separated st).pos + room st - 2 - (separated st).pos = room st - 2 by omega] at hnul
  constructor
  · rintro ⟨hall, hno⟩
    rw [show (r.store [nul]).bytes = r.bytes from rfl, hnul, not_or] at hno
    exact ⟨⟨fun w hmem => hall w (Buffer.mem_store.mpr (.inl (hw.kept hmem))), hno.1⟩, hno.2⟩
  · rintro ⟨⟨hall, hno⟩, hhex⟩
    refine ⟨fun w hmem => ?_, ?_⟩
    · rcases Buffer.mem_store.mp hmem with hmem | ⟨-, hlt, hc⟩
      · rcases hw.bound w hmem with hmem | ⟨hlt, hc⟩
        · exact hall w hmem
        · omega
      · rw [List.length_singleton] at hlt
        omega
    · rw [show (r.store [nul]).bytes = r.bytes from rfl, hnul, not_or]
      exact ⟨hno, hhex⟩

/-! ## All rows -/

theorem Spare.readRows (grants : Nat → Bool) (hs : Spare st.buf) (rows : List Row) :
    (Every grants Clean True rows st → Spare (readRows grants rows st).buf) ∧
    (Safe (readRows grants rows st).buf ↔ Safe st.buf ∧ Every grants Clean True rows st) := by
  induction rows generalizing st with
  | nil => exact ⟨fun _ => hs, by simp [Database.readRows, Every]⟩
  | cons row rows ih =>
    rw [Database.readRows, Every]
    cases hroom : Database.makeRoom grants st with
    | none => exact ⟨fun _ => hs, by simp⟩
    | some st₁ =>
      dsimp only
      obtain ⟨hs₁, hfree, hsafe₁⟩ := hs.makeRoom hroom
      obtain ⟨hs₂, hsafe₂⟩ := hs₁.appendRow hfree row
      obtain ⟨ihs, ihsafe⟩ := ih hs₂
      refine ⟨fun hev => ihs hev.2, ?_⟩
      rw [ihsafe, hsafe₂, hsafe₁, Clean, and_assoc]

theorem spare_opened : Spare opened.buf :=
  ⟨⟨13, by decide, by decide, rfl⟩, by decide, by decide⟩

theorem safe_opened : Safe opened.buf := by
  refine ⟨fun w hw => ?_, by decide⟩
  have hone : opened.buf.writes = [(0, 8192)] := rfl
  rw [hone, List.mem_singleton] at hw
  rw [hw]
  decide

theorem safe_literal {t : Text} (h : nul ∉ t) : Safe (literal t) :=
  ⟨fun _ hw => absurd hw List.not_mem_nil, h⟩

/-- The last bracket and the NUL. -/
theorem Spare.closed {b : Buffer} (hs : Spare b) (h : Safe b) :
    Safe ((b.put [']']).store [nul]) := by
  have hspare := hs.spare
  refine ⟨fun w hw => ?_, fun hm => ?_⟩
  · rcases Buffer.mem_store.mp hw with hw | ⟨-, hlt, hc⟩
    · rcases Buffer.mem_store.mp hw with hw | ⟨-, hlt, hc⟩
      · exact h.1 w hw
      · rw [List.length_singleton] at hlt
        omega
    · rw [Buffer.put_pos, List.length_singleton, List.length_singleton] at hlt
      rw [Buffer.put_capacity] at hc
      omega
  · rcases List.mem_append.mp hm with hm | hm
    · exact h.2 hm
    · exact isUnit_bracket.no_nul hm

/-- **The array loops stay inside their buffers** and write no NUL into the text exactly when every
row is clean. -/
theorem readArray_safe (grants : Nat → Bool) (rows : List Row) :
    Safe (readArray grants rows) ↔ (grants 0 = true → Every grants Clean True rows opened) := by
  rw [readArray]
  split_ifs with hg
  · obtain ⟨hspare, hsafe⟩ := spare_opened.readRows grants rows
    constructor
    · intro h _
      have hrows : Safe (readRows grants rows opened).buf := by
        refine safe_mono (List.prefix_append _ _) (fun w hw => ?_) h
        exact Buffer.mem_store.mpr (.inl (Buffer.mem_store.mpr (.inl hw)))
      exact (hsafe.mp hrows).2
    · exact fun hev => (hspare (hev hg)).closed (hsafe.mpr ⟨safe_opened, hev hg⟩)
  · exact ⟨fun _ h => absurd h hg, fun _ => safe_literal (by decide)⟩

/-- **A single row stays inside its buffer** and gets no NUL into its text exactly when none of its
escapes ends two bytes in front of the end. -/
theorem readObject_safe (grants : Nat → Bool) (rows : List Row) :
    Safe (readObject grants rows) ↔
      (grants 0 = true → ∀ row ∈ rows.head?, ¬ HexEnds 4094 (rowUnits row)) := by
  cases rows with
  | nil => simp [readObject, safe_literal (t := [])]
  | cons row rows =>
    rw [readObject]
    split_ifs with hg
    · obtain ⟨r, hw, hr⟩ := orbitDbRowToJson_writes row (by decide : 3 ≤ 4096)
        { bytes := [], capacity := 4096, writes := [] }
      have hnul := hw.hasNul
      have hle := hw.le
      have hcap : r.capacity = 4096 := hw.capacity
      have hpos : ({ bytes := [], capacity := 4096, writes := [] } : Buffer).pos = 0 := rfl
      rw [hpos] at hnul hle
      rw [hr]
      have hinside : ∀ w ∈ (r.store [nul]).writes, w.1 < w.2 := by
        intro w hmem
        rcases Buffer.mem_store.mp hmem with hmem | ⟨-, hlt, hc⟩
        · rcases hw.bound w hmem with hmem | ⟨hlt, (hc : w.2 = 4096)⟩
          · cases hmem
          · omega
        · rw [List.length_singleton] at hlt
          omega
      have hbytes : nul ∈ (r.store [nul]).bytes ↔ HexEnds 4094 (rowUnits row) :=
        hnul.trans (by simp)
      rw [Safe, and_iff_right hinside, hbytes]
      simp [hg]
    · exact ⟨fun _ h => absurd h hg, fun _ => safe_literal (by simp)⟩

/-- **The reads stay inside their buffers**, NUL-free, exactly when no row has an escape that ends
two bytes in front of the end of the buffer. -/
theorem reads_safe_iff (grants : Nat → Bool) (rows : List Row) :
    (∀ f ∈ [orbitDbAll, orbitDbWhereBound, orbitDbOrder], (Safe (f grants rows) ↔
      (grants 0 = true → Every grants Clean True rows opened))) ∧
    (∀ f ∈ [orbitDbGet, orbitDbFirst], (Safe (f grants rows) ↔
      (grants 0 = true → ∀ row ∈ rows.head?, ¬ HexEnds 4094 (rowUnits row)))) := by
  constructor
  · intro f hf
    simp only [List.mem_cons, List.not_mem_nil, or_false] at hf
    obtain rfl | rfl | rfl := hf <;> exact readArray_safe grants rows
  · intro f hf
    simp only [List.mem_cons, List.not_mem_nil, or_false] at hf
    obtain rfl | rfl := hf <;> exact readObject_safe grants rows

theorem hexEnds_replicate (n : Nat) : HexEnds (n + 12)
    (rowUnits [⟨some ['k'], some (List.replicate n 'a' ++ ['\x01'])⟩]) := by
  refine ⟨[['\x7b'], ['"'], ['k'], ['"'], [':'], ['"']] ++ List.replicate n ['a'],
    jsonPutChar '\x01', [['"'], ['\x7d']], ?_, rfl, ?_⟩
  · have hcut : cString (List.replicate n 'a' ++ ['\x01']) = List.replicate n 'a' ++ ['\x01'] := by
      refine Json.cString_self fun h => ?_
      rcases List.mem_append.mp h with h | h
      · exact absurd (List.eq_of_mem_replicate h) (by decide)
      · exact absurd (List.mem_singleton.mp h) (by decide)
    have hk : cString ['k'] = ['k'] := rfl
    have ha : jsonPutChar 'a' = ['a'] := rfl
    have hkk : jsonPutChar 'k' = ['k'] := rfl
    simp [rowUnits, columnUnits, Column.units, stringUnits, bodyUnits, hcut, hk, ha, hkk]
  · simp

/-- A control byte whose escape ends at byte 4094: the NUL of `snprintf` is in the text. -/
theorem get_cuts_escape : ¬ Safe (orbitDbGet (fun _ => true)
    [[⟨some ['k'], some (List.replicate 4082 'a' ++ ['\x01'])⟩]]) := by
  rw [orbitDbGet, readObject_safe]
  intro h
  exact h rfl _ rfl (hexEnds_replicate 4082)

end

end Runtime.Database
