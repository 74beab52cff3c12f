import Mathlib.Data.List.Infix
import Mathlib.Tactic.SplitIfs
import Orbit.Lib.JsonShort
import Orbit.Runtime.Database
import Orbit.Runtime.Proof.JsonDocument

/-!
# What the row writer writes

The text of a row is a list of units, each a plain byte or a whole escape. `Writes` says what the
writer makes of a list of units with the room up to `stop`: it writes them all when they fit; else
it stops within the last six bytes; and a NUL gets into the text exactly when an escape `\u00xx`
ends at `stop` (`orbitDbRowToJson_writes`). Over the rows: `readArray_safe_iff`.
-/

namespace Runtime.Database

open Lib.Json (Plain CharEscapes Spelled readBody)
open Json (Text nul hex2 jsonPutChar cString)

/-! ## Escapes -/

theorem jsonPutChar_cases (c : Char) :
    (Plain c ∧ jsonPutChar c = [c]) ∨
    (¬ Plain c ∧ ∃ x, jsonPutChar c = ['\\', x] ∧ x ≠ nul ∧ Lib.Json.escaped x = some c) ∨
    (c.toNat < 32 ∧ c ≠ '\n' ∧ c ≠ '\r' ∧ c ≠ '\t' ∧
      jsonPutChar c = ['\\', 'u', '0', '0'] ++ hex2 c.toNat) := by
  by_cases hq : c = '"'
  · subst hq
    exact .inr (.inl ⟨by decide, '"', by decide, by decide, by decide⟩)
  by_cases hb : c = '\\'
  · subst hb
    exact .inr (.inl ⟨by decide, '\\', by decide, by decide, by decide⟩)
  by_cases hn : c = '\n'
  · subst hn
    exact .inr (.inl ⟨by decide, 'n', by decide, by decide, by decide⟩)
  by_cases hr : c = '\r'
  · subst hr
    exact .inr (.inl ⟨by decide, 'r', by decide, by decide, by decide⟩)
  by_cases ht : c = '\t'
  · subst ht
    exact .inr (.inl ⟨by decide, 't', by decide, by decide, by decide⟩)
  by_cases hlow : c.toNat < 32
  · refine .inr (.inr ⟨hlow, hn, hr, ht, ?_⟩)
    rw [jsonPutChar, if_neg (by simp [hq, hb]), if_neg hn, if_neg hr, if_neg ht, if_pos hlow]
  · refine .inl ⟨⟨by omega, hq, hb⟩, ?_⟩
    rw [jsonPutChar, if_neg (by simp [hq, hb]), if_neg hn, if_neg hr, if_neg ht, if_neg hlow]

theorem hex2_low {n : Nat} (h : n < 32) : ∃ x y, hex2 n = [x, y] ∧ x ≠ nul ∧ y ≠ nul ∧
    Lib.Json.unicode x y = some (Char.ofNat n) := by
  have hall : ∀ n < 32, ∃ x y, hex2 n = [x, y] ∧ x ≠ nul ∧ y ≠ nul ∧
      Lib.Json.unicode x y = some (Char.ofNat n) := by
    intro n hn
    refine ⟨_, _, rfl, ?_⟩
    interval_cases n <;> decide
  exact hall n h

theorem jsonPutChar_escapes : CharEscapes jsonPutChar where
  plain c h := by
    obtain ⟨-, hc⟩ | ⟨hn, -⟩ | ⟨hlow, -⟩ := jsonPutChar_cases c
    · exact hc
    · exact absurd h hn
    · have := h.1
      omega
  opens c h := by
    obtain ⟨hp, -⟩ | ⟨-, x, hc, -⟩ | ⟨-, -, -, -, hc⟩ := jsonPutChar_cases c
    · exact absurd hp h
    · exact ⟨_, hc⟩
    · exact ⟨_, hc⟩
  reads c t h := by
    obtain ⟨hp, -⟩ | ⟨-, x, hc, -, hx⟩ | ⟨hlow, -, -, -, hc⟩ := jsonPutChar_cases c
    · exact absurd hp h
    · rw [hc, List.cons_append, List.singleton_append, readBody, hx]
      intro x' y' t' he hu
      rw [he] at hx
      cases hx
    · obtain ⟨x, y, hxy, -, -, hu⟩ := hex2_low hlow
      rw [Char.ofNat_toNat] at hu
      rw [hc, hxy]
      simp only [List.cons_append, List.nil_append, readBody, hu]

/-! ## Units -/

/-- A piece of text that is written as a whole. -/
def IsUnit (u : Text) : Prop :=
  (∃ c, c ≠ '\\' ∧ c ≠ nul ∧ u = [c]) ∨ ∃ c, ¬ Plain c ∧ u = jsonPutChar c

theorem isUnit_char {c : Char} (h : c ≠ '\\') (hn : c ≠ nul) : IsUnit [c] := .inl ⟨c, h, hn, rfl⟩

theorem isUnit_jsonPutChar {c : Char} : IsUnit (jsonPutChar c) := by
  by_cases hp : Plain c
  · rw [jsonPutChar_escapes.plain c hp]
    refine isUnit_char hp.2.2 ?_
    rintro rfl
    exact absurd hp (by decide)
  · exact .inr ⟨c, hp, rfl⟩

theorem IsUnit.no_nul {u : Text} (h : IsUnit u) : nul ∉ u := by
  obtain ⟨c, -, hn, rfl⟩ | ⟨c, hp, rfl⟩ := h
  · simpa using Ne.symm hn
  · obtain ⟨hp', -⟩ | ⟨-, x, hc, hx, -⟩ | ⟨hlow, -, -, -, hc⟩ := jsonPutChar_cases c
    · exact absurd hp' hp
    · rw [hc]
      simp only [List.mem_cons, List.not_mem_nil, or_false, not_or]
      exact ⟨by decide, Ne.symm hx⟩
    · obtain ⟨x, y, hxy, hx, hy, -⟩ := hex2_low hlow
      rw [hc, hxy]
      simp only [List.cons_append, List.nil_append, List.mem_cons, List.not_mem_nil, or_false,
        not_or]
      exact ⟨by decide, by decide, by decide, by decide, Ne.symm hx, Ne.symm hy⟩

/-- The units of a string between its quotes. -/
def bodyUnits (s : Text) : List Text := (cString s).map jsonPutChar

def stringUnits (s : Text) : List Text := ['"'] :: (bodyUnits s ++ [['"']])

def Column.units (first : Bool) (col : Column) : List Text :=
  (if first then [] else [[',']]) ++
    (stringUnits (col.name.getD []) ++ ([':'] :: stringUnits (col.text.getD [])))

def columnUnits : (first : Bool) → Row → List Text
  | _, [] => []
  | first, col :: cols => col.units first ++ columnUnits false cols

def rowUnits (row : Row) : List Text := ['\x7b'] :: (columnUnits true row ++ [['\x7d']])

/-- An escape `\u00xx` among the units ends behind `n` bytes. -/
def HexEnds (n : Nat) (us : List Text) : Prop :=
  ∃ pre u post, us = pre ++ u :: post ∧ u.length = 6 ∧ pre.flatten.length + 6 = n

theorem hexEnds_append {n : Nat} {us vs : List Text} :
    HexEnds n (us ++ vs) ↔ HexEnds n us ∨ ∃ m, HexEnds m vs ∧ us.flatten.length + m = n := by
  constructor
  · rintro ⟨pre, u, post, h, hu, hn⟩
    obtain ⟨as, rfl, h'⟩ | ⟨bs, rfl, h'⟩ := List.append_eq_append_iff.mp h
    · refine .inr ⟨as.flatten.length + 6, ⟨as, u, post, h', hu, rfl⟩, ?_⟩
      rw [List.flatten_append, List.length_append] at hn
      omega
    · cases bs with
      | nil =>
        refine .inr ⟨6, ⟨[], u, post, by simpa using h'.symm, hu, rfl⟩, ?_⟩
        simpa using hn
      | cons b bs =>
        obtain ⟨rfl, rfl⟩ := List.cons.inj h'
        exact .inl ⟨pre, u, bs, rfl, hu, hn⟩
  · rintro (⟨pre, u, post, rfl, hu, hn⟩ | ⟨m, ⟨pre, u, post, rfl, hu, rfl⟩, hn⟩)
    · exact ⟨pre, u, post ++ vs, by simp, hu, hn⟩
    · refine ⟨us ++ pre, u, post, by simp, hu, ?_⟩
      rw [List.flatten_append, List.length_append]
      omega

theorem HexEnds.six_le {n : Nat} {us : List Text} (h : HexEnds n us) : 6 ≤ n := by
  obtain ⟨pre, u, post, -, -, hn⟩ := h
  omega

theorem HexEnds.le {n : Nat} {us : List Text} (h : HexEnds n us) : n ≤ us.flatten.length := by
  obtain ⟨pre, u, post, rfl, hu, hn⟩ := h
  simp only [List.flatten_append, List.flatten_cons, List.length_append]
  omega

theorem not_hexEnds_nil {n : Nat} : ¬ HexEnds n [] := by
  rintro ⟨pre, u, post, h, -, -⟩
  cases pre <;> cases h

theorem hexEnds_singleton {n : Nat} {u : Text} : HexEnds n [u] ↔ u.length = 6 ∧ n = 6 := by
  constructor
  · rintro ⟨pre, v, post, h, hv, hn⟩
    cases pre with
    | nil =>
      obtain ⟨rfl, -⟩ := List.cons.inj h
      exact ⟨hv, by simpa using hn.symm⟩
    | cons a pre =>
      obtain ⟨-, h⟩ := List.cons.inj h
      cases pre <;> cases h
  · rintro ⟨hu, rfl⟩
    exact ⟨[], u, [], rfl, hu, rfl⟩

/-! ## Well-formed contents -/

def Pieces (t : Text) : Prop := ∃ us : List Text, t = us.flatten ∧ ∀ u ∈ us, IsUnit u

/-- The text of a buffer: whole units, or whole units up to an escape whose last digit is a NUL. -/
def Formed (b : Buffer) : Prop :=
  Pieces b.bytes ∨ ∃ (p : Text) (c : Char) (rest : Text), Pieces p ∧ c.toNat < 32 ∧
    b.bytes = p ++ (['\\', 'u', '0', '0'] ++ hex2 c.toNat).take 5 ++ nul :: rest

theorem Pieces.append {t u : Text} (h : Pieces t) (hu : IsUnit u) : Pieces (t ++ u) := by
  obtain ⟨us, rfl, hus⟩ := h
  refine ⟨us ++ [u], by simp, fun v hv => ?_⟩
  rcases List.mem_append.mp hv with hv | hv
  · exact hus v hv
  · rw [List.mem_singleton.mp hv]
    exact hu

theorem Pieces.no_nul {t : Text} (h : Pieces t) : nul ∉ t := by
  obtain ⟨us, rfl, hus⟩ := h
  intro hm
  obtain ⟨u, hu, hc⟩ := List.mem_flatten.mp hm
  exact (hus u hu).no_nul hc

theorem Pieces.spelled {t rest : Text} (h : Pieces t) (hrest : Spelled jsonPutChar rest) :
    Spelled jsonPutChar (t ++ rest) := by
  obtain ⟨us, rfl, hus⟩ := h
  induction us with
  | nil => exact hrest
  | cons u us ih =>
    rw [List.flatten_cons, List.append_assoc]
    have ih := ih fun v hv => hus v (List.mem_cons_of_mem u hv)
    obtain ⟨c, hc, -, rfl⟩ | ⟨c, hp, rfl⟩ := hus u List.mem_cons_self
    · exact .char hc ih
    · exact .escape hp ih

theorem cString_append_nul {t rest : Text} (h : nul ∉ t) : cString (t ++ nul :: rest) = t := by
  rw [cString, List.takeWhile_append_of_pos fun c hc => by
    rw [decide_eq_true_eq]
    rintro rfl
    exact h hc]
  simp

theorem Formed.spelled {b : Buffer} (h : Formed b) : Spelled jsonPutChar b.text := by
  rw [Buffer.text]
  obtain hp | ⟨p, c, rest, hp, hlow, hb⟩ := h
  · rw [Json.cString_self hp.no_nul, ← List.append_nil b.bytes]
    exact hp.spelled .nil
  · obtain ⟨x, y, hxy, hx, -, -⟩ := hex2_low hlow
    have hcut : (['\\', 'u', '0', '0'] ++ hex2 c.toNat).take 5 = ['\\', 'u', '0', '0', x] := by
      rw [hxy]
      rfl
    rw [hb, hcut, cString_append_nul]
    · exact hp.spelled (.broken rfl)
    · simp only [List.mem_append, List.mem_cons, List.not_mem_nil, or_false, not_or]
      exact ⟨hp.no_nul, by decide, by decide, by decide, by decide, Ne.symm hx⟩

/-! ## Writing units -/

/-- The writer, with the room up to `stop`, makes `r` out of `b` for the units `us`. -/
structure Writes (stop : Nat) (us : List Text) (b r : Buffer) : Prop where
  grows : b.bytes <+: r.bytes
  kept : b.writes ⊆ r.writes
  capacity : r.capacity = b.capacity
  le : r.pos ≤ stop
  /-- Every index is in front of `stop`. -/
  bound : ∀ w ∈ r.writes, w ∈ b.writes ∨ (w.1 < stop ∧ w.2 = b.capacity)
  all : b.pos + us.flatten.length ≤ stop → ¬ HexEnds (stop - b.pos) us →
    r.bytes = b.bytes ++ us.flatten
  full : stop < b.pos + us.flatten.length → stop < r.pos + 6
  hasNul : nul ∈ r.bytes ↔ nul ∈ b.bytes ∨ HexEnds (stop - b.pos) us
  ends : HexEnds (stop - b.pos) us → r.pos = stop
  formed : Formed b → Formed r

section
variable {stop : Nat} {b r q : Buffer} {us vs : List Text}

@[simp] theorem Buffer.put_bytes (b : Buffer) (t : Text) : (b.put t).bytes = b.bytes ++ t := rfl

@[simp] theorem Buffer.put_capacity (b : Buffer) (t : Text) : (b.put t).capacity = b.capacity := rfl

@[simp] theorem Buffer.put_pos (b : Buffer) (t : Text) : (b.put t).pos = b.pos + t.length := by
  simp [Buffer.pos]

theorem Buffer.mem_store {b : Buffer} {t : Text} {w : Nat × Nat} : w ∈ (b.store t).writes ↔
    w ∈ b.writes ∨ (b.pos ≤ w.1 ∧ w.1 < b.pos + t.length ∧ w.2 = b.capacity) := by
  rw [Buffer.store, List.mem_append, List.mem_map]
  constructor
  · rintro (h | ⟨i, hi, rfl⟩)
    · exact .inl h
    · rw [List.mem_range'_1] at hi
      exact .inr ⟨hi.1, hi.2, rfl⟩
  · rintro (h | ⟨hle, hlt, hc⟩)
    · exact .inl h
    · exact .inr ⟨w.1, List.mem_range'_1.mpr ⟨hle, hlt⟩, by rw [← hc]⟩

/-- A unit that is not cut. -/
theorem Formed.put (h : Formed b) {u : Text} (hu : IsUnit u) : Formed (b.put u) := by
  obtain hp | ⟨p, c, rest, hp, hlow, hb⟩ := h
  · exact .inl (hp.append hu)
  · exact .inr ⟨p, c, rest ++ u, hp, hlow, by rw [Buffer.put_bytes, hb]; simp⟩

theorem Writes.refl (h : b.pos ≤ stop) : Writes stop [] b b where
  grows := List.prefix_rfl
  kept := List.Subset.refl _
  capacity := rfl
  le := h
  bound := fun w hw => .inl hw
  all := by simp
  full := fun hfull => by
    simp only [List.flatten_nil, List.length_nil] at hfull
    omega
  hasNul := by simp [not_hexEnds_nil]
  ends := fun hh => absurd hh not_hexEnds_nil
  formed := id

theorem Writes.put {u : Text} (hu : IsUnit u) (h6 : u.length ≠ 6) (h : b.pos + u.length ≤ stop) :
    Writes stop [u] b (b.put u) where
  grows := List.prefix_append _ _
  kept := fun w hw => Buffer.mem_store.mpr (.inl hw)
  capacity := rfl
  le := by simpa using h
  bound := fun w hw => by
    rcases Buffer.mem_store.mp hw with hw | ⟨-, hlt, hc⟩
    · exact .inl hw
    · exact .inr ⟨by omega, hc⟩
  all := by simp
  full := fun hfull => by
    simp only [List.flatten_cons, List.flatten_nil, List.append_nil] at hfull
    omega
  hasNul := by
    rw [hexEnds_singleton, Buffer.put_bytes, List.mem_append]
    simp [hu.no_nul, h6]
  ends := fun hh => absurd (hexEnds_singleton.mp hh).1 h6
  formed := fun hb => hb.put hu

/-- An escape that `snprintf` writes. -/
theorem Writes.printHex {c : Char} (hlow : c.toNat < 32)
    (hc : jsonPutChar c = ['\\', 'u', '0', '0'] ++ hex2 c.toNat) (h : b.pos + 6 ≤ stop) :
    Writes stop [jsonPutChar c] b (b.printHex stop c) := by
  obtain ⟨x, y, hxy, hx, hy, -⟩ := hex2_low hlow
  have hunit : jsonPutChar c = ['\\', 'u', '0', '0', x, y] := by
    rw [hc, hxy]
    rfl
  have hlen : (jsonPutChar c).length = 6 := by
    rw [hunit]
    rfl
  by_cases hend : b.pos + 6 = stop
  · have hroom : stop - b.pos - 1 = 5 := by omega
    have hbytes : (b.printHex stop c).bytes = b.bytes ++ ['\\', 'u', '0', '0', x, nul] := by
      simp only [Buffer.printHex, hxy, hroom]
      rfl
    have hmem : ∀ w, w ∈ (b.printHex stop c).writes ↔
        w ∈ b.writes ∨ (b.pos ≤ w.1 ∧ w.1 < b.pos + 6 ∧ w.2 = b.capacity) := by
      intro w
      simp only [Buffer.printHex, hxy, hroom]
      exact Buffer.mem_store
    exact {
      grows := hbytes ▸ List.prefix_append _ _
      kept := fun w hw => (hmem w).mpr (.inl hw)
      capacity := rfl
      le := by
        rw [Buffer.pos, hbytes, List.length_append]
        exact h
      bound := fun w hw => by
        rcases (hmem w).mp hw with hw | ⟨-, hlt, hc⟩
        · exact .inl hw
        · exact .inr ⟨by omega, hc⟩
      all := fun _ hno => absurd (hexEnds_singleton.mpr ⟨hlen, by omega⟩) hno
      full := fun _ => by
        rw [Buffer.pos, hbytes, List.length_append]
        exact Nat.lt_of_le_of_lt (Nat.le_of_eq hend.symm) (by simp [Buffer.pos])
      hasNul := by
        rw [hbytes, List.mem_append]
        exact ⟨fun _ => .inr (hexEnds_singleton.mpr ⟨hlen, by omega⟩), fun _ => .inr (by simp)⟩
      ends := fun _ => by
        rw [Buffer.pos, hbytes, List.length_append]
        exact hend
      formed := fun hb => by
        obtain hp | ⟨p, d, rest, hp, hd, hb⟩ := hb
        · refine .inr ⟨b.bytes, c, [], hp, hlow, ?_⟩
          rw [hbytes, hxy]
          simp
        · exact .inr ⟨p, d, rest ++ ['\\', 'u', '0', '0', x, nul], hp, hd, by
            rw [hbytes, hb]
            simp⟩ }
  · obtain ⟨k, hk⟩ : ∃ k, stop - b.pos - 1 = k + 6 := ⟨stop - b.pos - 7, by omega⟩
    have hbytes : (b.printHex stop c).bytes = b.bytes ++ jsonPutChar c := by
      simp only [Buffer.printHex, hxy, hk, hunit]
      rfl
    have hmem : ∀ w, w ∈ (b.printHex stop c).writes ↔
        w ∈ b.writes ∨ (b.pos ≤ w.1 ∧ w.1 < b.pos + 7 ∧ w.2 = b.capacity) := by
      intro w
      have hstored : (['\\', 'u', '0', '0'] ++ [x, y]).take (k + 6) ++ [nul] =
          ['\\', 'u', '0', '0', x, y, nul] := by simp
      simp only [Buffer.printHex, hxy, hk, hstored]
      exact Buffer.mem_store
    exact {
      grows := hbytes ▸ List.prefix_append _ _
      kept := fun w hw => (hmem w).mpr (.inl hw)
      capacity := rfl
      le := by
        rw [Buffer.pos, hbytes, List.length_append, hlen]
        exact h
      bound := fun w hw => by
        rcases (hmem w).mp hw with hw | ⟨-, hlt, hc⟩
        · exact .inl hw
        · exact .inr ⟨by omega, hc⟩
      all := fun _ _ => by rw [hbytes, List.flatten_cons, List.flatten_nil, List.append_nil]
      full := fun hfull => by
        simp only [List.flatten_cons, List.flatten_nil, List.append_nil, hlen] at hfull
        omega
      hasNul := by
        rw [hbytes, List.mem_append, hexEnds_singleton]
        have hne : ¬ (stop - b.pos = 6) := by omega
        simp [isUnit_jsonPutChar.no_nul, hne]
      ends := fun hh => absurd (hexEnds_singleton.mp hh).2 (by omega)
      formed := fun hb => by
        have := hb.put (isUnit_jsonPutChar (c := c))
        rwa [Formed, Buffer.put_bytes, ← hbytes] at this }

/-- Nothing more is written once the rest does not fit. -/
theorem Writes.skip (hle : b.pos ≤ stop) (hend : stop < b.pos + 6)
    (hfull : stop < b.pos + us.flatten.length) : Writes stop us b b where
  grows := List.prefix_rfl
  kept := List.Subset.refl _
  capacity := rfl
  le := hle
  bound := fun w hw => .inl hw
  all := fun h => absurd h (by omega)
  full := fun _ => hend
  hasNul := by
    have hno : ¬ HexEnds (stop - b.pos) us := fun h => by
      have := h.six_le
      omega
    simp [hno]
  ends := fun h => by
    have := h.six_le
    omega
  formed := id

/-- The second part starts where the first ends, unless nothing more can be written. -/
theorem Writes.start (h : Writes stop us b r) :
    (¬ HexEnds (stop - b.pos) us ∧ r.bytes = b.bytes ++ us.flatten ∧
      r.pos = b.pos + us.flatten.length) ∨ stop < r.pos + 6 := by
  by_cases hhex : HexEnds (stop - b.pos) us
  · have := h.ends hhex
    exact .inr (by omega)
  · by_cases hfit : b.pos + us.flatten.length ≤ stop
    · have hr := h.all hfit hhex
      exact .inl ⟨hhex, hr, by rw [Buffer.pos, hr, List.length_append, Buffer.pos]⟩
    · exact .inr (h.full (Nat.lt_of_not_le hfit))

theorem Writes.hexEnds_append (h : Writes stop us b r) :
    HexEnds (stop - b.pos) (us ++ vs) ↔
      HexEnds (stop - b.pos) us ∨ HexEnds (stop - r.pos) vs := by
  have hle := h.le
  rw [Database.hexEnds_append]
  refine or_congr_right' fun hno => ?_
  constructor
  · rintro ⟨m, hm, hsum⟩
    have h6 := hm.six_le
    have hr := h.all (by omega) hno
    have hpos : r.pos = b.pos + us.flatten.length := by
      rw [Buffer.pos, hr, List.length_append, Buffer.pos]
    rwa [show stop - r.pos = m by omega]
  · intro hm
    have h6 := hm.six_le
    obtain ⟨-, -, hpos⟩ | hend := h.start
    · exact ⟨_, hm, by omega⟩
    · omega

/-- The units before and the units after. -/
theorem Writes.append (h : Writes stop us b r) (h' : Writes stop vs r q) :
    Writes stop (us ++ vs) b q where
  grows := h.grows.trans h'.grows
  kept := fun w hw => h'.kept (h.kept hw)
  capacity := h'.capacity.trans h.capacity
  le := h'.le
  bound := fun w hw => by
    rcases h'.bound w hw with hw | ⟨hlt, hc⟩
    · exact h.bound w hw
    · exact .inr ⟨hlt, hc.trans h.capacity⟩
  all := fun hfit hno => by
    rw [h.hexEnds_append, not_or] at hno
    rw [List.flatten_append, List.length_append] at hfit
    have hr := h.all (by omega) hno.1
    have hpos : r.pos = b.pos + us.flatten.length := by
      rw [Buffer.pos, hr, List.length_append, Buffer.pos]
    rw [h'.all (by omega) hno.2, hr, List.flatten_append, List.append_assoc]
  full := fun hfull => by
    rw [List.flatten_append, List.length_append] at hfull
    have hgrows : r.pos ≤ q.pos := h'.grows.length_le
    obtain ⟨-, -, hpos⟩ | hend := h.start
    · exact h'.full (by omega)
    · omega
  hasNul := by rw [h'.hasNul, h.hasNul, h.hexEnds_append, or_assoc]
  ends := fun hh => by
    have hgrows : r.pos ≤ q.pos := h'.grows.length_le
    have hle := h'.le
    rcases h.hexEnds_append.mp hh with hh | hh
    · have := h.ends hh
      omega
    · exact h'.ends hh
  formed := fun hb => h'.formed (h.formed hb)

/-! ## The writer -/

/-- The character that closes a string or an object, where there is room. -/
def closeWith (c : Char) (stop : Nat) (b : Buffer) : Buffer :=
  if b.pos < stop then b.put [c] else b

theorem isUnit_quote : IsUnit ['"'] := isUnit_char (by decide) (by decide)

/-- A character that closes too early. -/
theorem Writes.cut {c : Char} (hc : IsUnit [c]) (hle : b.pos ≤ stop) (hend : stop < b.pos + 6)
    (hfull : stop < b.pos + us.flatten.length) : Writes stop us b (closeWith c stop b) := by
  rw [closeWith]
  split_ifs with hlt
  · have hput : Writes stop [[c]] b (b.put [c]) := .put hc (by simp) hlt
    have hno : ¬ HexEnds (stop - b.pos) us := fun h => by
      have := h.six_le
      omega
    exact {
      grows := hput.grows
      kept := hput.kept
      capacity := hput.capacity
      le := hput.le
      bound := hput.bound
      all := fun h => absurd h (by omega)
      full := fun _ => by
        rw [Buffer.put_pos]
        omega
      hasNul := by
        rw [hput.hasNul]
        simp [hno, hexEnds_singleton]
      ends := fun h => absurd h hno
      formed := hput.formed }
  · exact .skip hle hend hfull

/-- A character that closes at its place. -/
theorem Writes.close {c : Char} (hc : IsUnit [c]) (h : b.pos ≤ stop) :
    Writes stop [[c]] b (closeWith c stop b) := by
  by_cases hlt : b.pos < stop
  · rw [closeWith, if_pos hlt]
    exact .put hc (by simp) hlt
  · apply Writes.cut hc h (by omega)
    simp only [List.flatten_cons, List.flatten_nil, List.append_nil, List.length_singleton]
    omega

theorem escapeLoop_cons {c : Char} (s : Text) (hc : c ≠ nul) (hlt : b.pos < stop) :
    (stop < b.pos + (jsonPutChar c).length ∧ escapeLoop stop (c :: s) b = b) ∨
    ∃ q, Writes stop [jsonPutChar c] b q ∧ escapeLoop stop (c :: s) b = escapeLoop stop s q := by
  rw [escapeLoop, if_neg (not_or.mpr ⟨hc, by omega⟩)]
  have named : ∀ x, jsonPutChar c = ['\\', x] → b.pos + 2 ≤ stop →
      Writes stop [jsonPutChar c] b (b.put ['\\', x]) := by
    intro x hx hfit
    rw [← hx]
    exact .put isUnit_jsonPutChar (by rw [hx]; simp) (by rw [hx]; exact hfit)
  by_cases hq : c = '"' ∨ c = '\\'
  · have hput : jsonPutChar c = ['\\', c] := by rw [jsonPutChar, if_pos hq]
    rw [if_pos hq]
    split_ifs with hend
    · exact .inl ⟨by rw [hput]; exact hend, rfl⟩
    · exact .inr ⟨_, named c hput (by omega), rfl⟩
  rw [if_neg hq]
  -- without room for two bytes a named escape is refused with the other control bytes
  have refused : stop < b.pos + 2 → c.toNat < 32 → jsonPutChar c = ['\\', 'n'] ∨
      jsonPutChar c = ['\\', 'r'] ∨ jsonPutChar c = ['\\', 't'] →
      stop < b.pos + (jsonPutChar c).length := by
    rintro hend - (h | h | h) <;> rw [h] <;> exact hend
  by_cases hn : c = '\n'
  · subst hn
    by_cases hfit : b.pos + 2 ≤ stop
    · rw [if_pos ⟨rfl, hfit⟩]
      exact .inr ⟨_, named 'n' rfl hfit, rfl⟩
    · rw [if_neg (fun h => hfit h.2), if_neg (by simp), if_neg (by simp), if_pos (by decide),
        if_pos (by omega)]
      exact .inl ⟨refused (by omega) (by decide) (.inl rfl), rfl⟩
  rw [if_neg (fun h => hn h.1)]
  by_cases hr : c = '\r'
  · subst hr
    by_cases hfit : b.pos + 2 ≤ stop
    · rw [if_pos ⟨rfl, hfit⟩]
      exact .inr ⟨_, named 'r' rfl hfit, rfl⟩
    · rw [if_neg (fun h => hfit h.2), if_neg (by simp), if_pos (by decide), if_pos (by omega)]
      exact .inl ⟨refused (by omega) (by decide) (.inr (.inl rfl)), rfl⟩
  rw [if_neg (fun h => hr h.1)]
  by_cases ht : c = '\t'
  · subst ht
    by_cases hfit : b.pos + 2 ≤ stop
    · rw [if_pos ⟨rfl, hfit⟩]
      exact .inr ⟨_, named 't' rfl hfit, rfl⟩
    · rw [if_neg (fun h => hfit h.2), if_pos (by decide), if_pos (by omega)]
      exact .inl ⟨refused (by omega) (by decide) (.inr (.inr rfl)), rfl⟩
  rw [if_neg (fun h => ht h.1)]
  by_cases hlow : c.toNat < 0x20
  · have hput : jsonPutChar c = ['\\', 'u', '0', '0'] ++ hex2 c.toNat := by
      rw [jsonPutChar, if_neg hq, if_neg hn, if_neg hr, if_neg ht, if_pos hlow]
    rw [if_pos hlow]
    split_ifs with hend
    · exact .inl ⟨by rw [hput]; exact hend, rfl⟩
    · exact .inr ⟨_, .printHex hlow hput (by omega), rfl⟩
  · have hput : jsonPutChar c = [c] := by
      rw [jsonPutChar, if_neg hq, if_neg hn, if_neg hr, if_neg ht, if_neg hlow]
    rw [if_neg hlow]
    refine .inr ⟨_, ?_, rfl⟩
    have hone : (jsonPutChar c).length = 1 := by rw [hput]; rfl
    rw [← hput]
    exact .put isUnit_jsonPutChar (by omega) (by omega)

theorem jsonPutChar_length_le (c : Char) : (jsonPutChar c).length ≤ 6 := by
  obtain ⟨-, h⟩ | ⟨-, x, h, -⟩ | ⟨-, -, -, -, h⟩ := jsonPutChar_cases c
  · simp [h]
  · simp [h]
  · simp [h, hex2]

theorem bodyUnits_cons {c : Char} (s : Text) (h : c ≠ nul) :
    bodyUnits (c :: s) = jsonPutChar c :: bodyUnits s := by
  rw [bodyUnits, cString, List.takeWhile_cons_of_pos (by simpa using h), List.map_cons]
  rfl

/-- The bytes of a string and its closing quote. -/
theorem escapeLoop_writes (s : Text) (h : b.pos ≤ stop) :
    Writes stop (bodyUnits s ++ [['"']]) b (closeWith '"' stop (escapeLoop stop s b)) := by
  induction s generalizing b with
  | nil => exact .close isUnit_quote h
  | cons c s ih =>
    by_cases hc : c = nul
    · have hunits : bodyUnits (c :: s) = [] := by
        rw [bodyUnits, cString, List.takeWhile_cons_of_neg (by simp [hc]), List.map_nil]
      rw [hunits, escapeLoop, if_pos (.inl hc)]
      exact .close isUnit_quote h
    · rw [bodyUnits_cons s hc]
      by_cases hlt : b.pos < stop
      · obtain ⟨hend, hloop⟩ | ⟨q, hw, hloop⟩ := escapeLoop_cons s hc hlt
        · have := jsonPutChar_length_le c
          rw [hloop]
          refine .cut isUnit_quote h (by omega) ?_
          rw [List.cons_append, List.flatten_cons, List.length_append]
          omega
        · rw [hloop]
          exact hw.append (ih hw.le)
      · rw [escapeLoop, if_pos (.inr (by omega))]
        refine .cut isUnit_quote h (by omega) ?_
        simp only [List.cons_append, List.flatten_cons, List.flatten_append, List.length_append,
          List.length_singleton, List.flatten_nil, List.append_nil]
        omega

theorem stringUnits_length (s : Text) : 2 ≤ (stringUnits s).flatten.length := by
  simp only [stringUnits, List.flatten_cons, List.flatten_append, List.length_append,
    List.length_singleton, List.flatten_nil, List.append_nil]
  omega

theorem orbitDbAppendJsonEscaped_writes (s : Text) (h : b.pos ≤ stop) :
    Writes stop (stringUnits s) b (orbitDbAppendJsonEscaped stop s b) := by
  have hlen := stringUnits_length s
  rw [orbitDbAppendJsonEscaped]
  split_ifs with hend
  · exact .skip h (by omega) (by omega)
  · have hopen : Writes stop [['"']] b (b.put ['"']) :=
      .put isUnit_quote (by decide) (by simp only [List.length_singleton]; omega)
    exact hopen.append (escapeLoop_writes s hopen.le)

theorem columnLoop_writes (row : Row) (first : Bool) (h : b.pos ≤ stop) :
    Writes stop (columnUnits first row) b (columnLoop stop first row b) := by
  induction row generalizing first b with
  | nil => exact .refl h
  | cons col cols ih =>
    have hname := stringUnits_length (col.name.getD [])
    have htext := stringUnits_length (col.text.getD [])
    have hlong : 5 ≤ (columnUnits first (col :: cols)).flatten.length := by
      rw [columnUnits, Column.units]
      simp only [List.flatten_append, List.flatten_cons, List.length_append]
      simp only [List.length_singleton]
      omega
    rw [columnLoop]
    by_cases hend : stop ≤ b.pos
    · rw [if_pos hend]
      exact .skip h (by omega) (by omega)
    rw [if_neg hend]
    have hsep : Writes stop (if first then [] else [[',']]) b
        (if first then b else b.put [',']) := by
      cases first with
      | true => exact .refl h
      | false => exact .put (isUnit_char (by decide) (by decide)) (by decide) (by
          simp only [List.length_singleton]
          omega)
    rw [columnUnits, Column.units, List.append_assoc]
    refine hsep.append ?_
    generalize (if first then b else b.put [',']) = b₁ at hsep ⊢
    have hrest : 5 ≤ (stringUnits (col.name.getD []) ++ [':'] :: stringUnits (col.text.getD []) ++
        columnUnits false cols).flatten.length := by
      simp only [List.flatten_append, List.flatten_cons, List.length_append, List.length_singleton]
      omega
    dsimp only
    by_cases hend₁ : stop ≤ b₁.pos
    · rw [if_pos hend₁]
      exact .skip hsep.le (by omega) (by omega)
    rw [if_neg hend₁, List.append_assoc]
    have hn := orbitDbAppendJsonEscaped_writes (col.name.getD []) hsep.le
    refine hn.append ?_
    generalize orbitDbAppendJsonEscaped stop (col.name.getD []) b₁ = b₂ at hn ⊢
    by_cases hend₂ : stop ≤ b₂.pos + 1
    · rw [if_pos hend₂]
      refine .skip hn.le (by omega) ?_
      rw [List.cons_append, List.flatten_cons, List.flatten_append, List.length_append,
        List.length_append, List.length_singleton]
      omega
    rw [if_neg hend₂, List.cons_append]
    have hcolon : Writes stop [[':']] b₂ (b₂.put [':']) :=
      .put (isUnit_char (by decide) (by decide)) (by decide) (by
        simp only [List.length_singleton]
        omega)
    refine hcolon.append ?_
    have ht := orbitDbAppendJsonEscaped_writes (col.text.getD []) hcolon.le
    exact ht.append (ih false ht.le)

/-- **What the row writer writes** into at least three bytes. -/
theorem orbitDbRowToJson_writes (row : Row) {maxLen : Nat} (h : 3 ≤ maxLen) (b : Buffer) :
    ∃ r, Writes (b.pos + maxLen - 2) (rowUnits row) b r ∧
      orbitDbRowToJson row maxLen b = r.store [nul] := by
  have hopen : Writes (b.pos + maxLen - 2) [['\x7b']] b (b.put ['\x7b']) :=
    .put (isUnit_char (by decide) (by decide)) (by decide) (by
      rw [List.length_singleton]
      omega)
  have hcols := columnLoop_writes row true hopen.le
  have hclose := Writes.close (c := '\x7d') (isUnit_char (by decide) (by decide)) hcols.le
  exact ⟨_, hopen.append (hcols.append hclose), by rw [orbitDbRowToJson, if_neg (by omega)]; rfl⟩

theorem orbitDbRowToJson_small (row : Row) {maxLen : Nat} (h : maxLen < 3) (b : Buffer) :
    orbitDbRowToJson row maxLen b = b := if_pos h

end

end Runtime.Database
