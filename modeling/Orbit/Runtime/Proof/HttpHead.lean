import Mathlib.Data.List.GetD
import Orbit.Lib.Find
import Orbit.Runtime.Http

/-!
# The head of a request

What the searches of the parser find, and that the answer on a head stands when more bytes come
(`readHead_complete_append`, `readHead_refuse_append`): of a complete one always, of a refused one
unless the refusal counts bytes of the blank line.
-/

namespace Runtime.Http

/-! ## Searches -/

theorem findIdx?_eq_some {xs : Text} {c : Char} {i : Nat} :
    xs.findIdx? (· = c) = some i ↔ xs[i]? = some c ∧ ∀ j < i, xs[j]? ≠ some c := by
  rw [List.findIdx?_eq_some_iff_getElem]
  constructor
  · rintro ⟨h, hi, hmin⟩
    refine ⟨by rw [List.getElem?_eq_getElem h, of_decide_eq_true hi], fun j hj => ?_⟩
    rw [List.getElem?_eq_getElem (Nat.lt_trans hj h)]
    have := hmin j hj
    simpa using this
  · rintro ⟨hi, hmin⟩
    obtain ⟨h, hc⟩ := List.getElem?_eq_some_iff.mp hi
    refine ⟨h, by simpa using hc, fun j hj => ?_⟩
    have := hmin j hj
    rw [List.getElem?_eq_getElem (Nat.lt_trans hj h)] at this
    simpa using this

theorem findIdx?_eq_none {xs : Text} {c : Char} :
    xs.findIdx? (· = c) = none ↔ ∀ j : Nat, xs[j]? ≠ some c := by
  rw [List.findIdx?_eq_none_iff]
  constructor
  · intro h j hj
    have := h c (List.mem_of_getElem? hj)
    simp at this
  · intro h x hx
    obtain ⟨j, hj⟩ := List.mem_iff_getElem?.mp hx
    have : x ≠ c := fun hc => h j (hc ▸ hj)
    simpa using this

theorem slice_getElem? (raw : Text) (start stop i : Nat) :
    ((raw.take stop).drop start)[i]? = if start + i < stop then raw[start + i]? else none := by
  rw [List.getElem?_drop, List.getElem?_take]

theorem memchr_eq_some {raw : Text} {c : Char} {start stop p : Nat} :
    memchr raw c start stop = some p ↔ start ≤ p ∧ p < stop ∧ raw[p]? = some c ∧
      ∀ q, start ≤ q → q < p → raw[q]? ≠ some c := by
  rw [memchr, Option.map_eq_some_iff]
  simp only [findIdx?_eq_some, slice_getElem?]
  constructor
  · rintro ⟨i, ⟨hi, hmin⟩, rfl⟩
    split at hi
    · rename_i hlt
      refine ⟨Nat.le_add_right _ _, hlt, hi, fun q hq hqi => ?_⟩
      have := hmin (q - start) (by omega)
      rwa [Nat.add_sub_of_le hq, if_pos (by omega)] at this
    · cases hi
  · rintro ⟨hle, hlt, hp, hmin⟩
    refine ⟨p - start, ⟨?_, fun j hj => ?_⟩, Nat.add_sub_of_le hle⟩
    · rwa [Nat.add_sub_of_le hle, if_pos hlt]
    · rw [if_pos (by omega)]
      exact hmin _ (Nat.le_add_right _ _) (by omega)

theorem memchr_eq_none {raw : Text} {c : Char} {start stop : Nat} :
    memchr raw c start stop = none ↔ ∀ q, start ≤ q → q < stop → raw[q]? ≠ some c := by
  rw [memchr, Option.map_eq_none_iff, findIdx?_eq_none]
  simp only [slice_getElem?]
  constructor
  · intro h q hq hqs
    have := h (q - start)
    rwa [Nat.add_sub_of_le hq, if_pos hqs] at this
  · intro h j
    split
    · exact h _ (Nat.le_add_right _ _) (by assumption)
    · exact nofun

theorem lt_length {raw : Text} {c : Char} {p : Nat} (h : raw[p]? = some c) : p < raw.length :=
  (List.getElem?_eq_some_iff.mp h).1

/-- A hit stays the first one when the window ends later and more bytes come. -/
theorem memchr_append {raw : Text} {c : Char} {start stop stop' p : Nat} (t : Text)
    (h : memchr raw c start stop = some p) (hstop : p < stop') :
    memchr (raw ++ t) c start stop' = some p := by
  obtain ⟨hle, -, hp, hmin⟩ := memchr_eq_some.mp h
  have hlen := lt_length hp
  refine memchr_eq_some.mpr ⟨hle, hstop, by rwa [List.getElem?_append_left hlen], fun q hq hqp => ?_⟩
  rw [List.getElem?_append_left (Nat.lt_trans hqp hlen)]
  exact hmin q hq hqp

/-- Nothing is found in a window that the bytes behind do not touch. -/
theorem memchr_append_none {raw : Text} {c : Char} {start stop : Nat} (t : Text)
    (h : memchr raw c start stop = none) (hstop : stop ≤ raw.length) :
    memchr (raw ++ t) c start stop = none := by
  refine memchr_eq_none.mpr fun q hq hqs => ?_
  rw [List.getElem?_append_left (by omega)]
  exact memchr_eq_none.mp h q hq hqs

/-! ## The blank line -/

def blankLine : Text := ['\r', '\n', '\r', '\n']

/-- The first blank line is at `e`. -/
def HeadEndsAt (raw : Text) (e : Nat) : Prop :=
  blankLine <+: raw.drop e ∧ ∀ k < e, ¬ blankLine <+: raw.drop k

theorem headEndFrom_eq (raw : Text) (p : Nat) :
    headEndFrom p raw = (Lib.Find.indexOf blankLine raw).map (p + ·) := by
  induction raw generalizing p with
  | nil => rfl
  | cons c q ih =>
    have hblankLine : blankLine <+: c :: q ↔ c = '\r' ∧ q.take 3 = ['\n', '\r', '\n'] := by
      rw [blankLine, List.cons_prefix_cons, List.prefix_iff_eq_take]
      exact and_congr eq_comm eq_comm
    have hnext : (headEndFrom (p + 1) q) =
        ((Lib.Find.indexOf blankLine q).map (· + 1)).map (p + ·) := by
      rw [ih, Option.map_map]
      congr 1
      funext i
      simp only [Function.comp_apply]
      omega
    rw [headEndFrom]
    by_cases hc : c = '\r'
    · rw [if_pos hc]
      by_cases hlen : q.length < 3
      · rw [if_pos hlen]
        cases hfind : Lib.Find.indexOf blankLine (c :: q) with
        | none => rfl
        | some i =>
          obtain ⟨hhit, -⟩ := Lib.Find.indexOf_some hfind
          have := hhit.length_le
          rw [List.length_drop, List.length_cons, blankLine] at this
          simp only [List.length_cons, List.length_nil] at this
          omega
      · rw [if_neg hlen]
        by_cases hblank : q.take 3 = ['\n', '\r', '\n']
        · rw [if_pos hblank, Lib.Find.indexOf_of_match (hblankLine.mpr ⟨hc, hblank⟩)]
          rfl
        · rw [if_neg hblank, hnext,
            Lib.Find.indexOf_cons_of_miss fun h => hblank (hblankLine.mp h).2]
    · rw [if_neg hc, hnext, Lib.Find.indexOf_cons_of_miss fun h => hc (hblankLine.mp h).1]

theorem HeadEndsAt.le_length {raw : Text} {e : Nat} (h : HeadEndsAt raw e) :
    e + 4 ≤ raw.length := by
  have := h.1.length_le
  have hfour : blankLine.length = 4 := rfl
  rw [List.length_drop, hfour] at this
  omega

theorem findHeadEnd_eq_some {raw : Text} {e : Nat} :
    findHeadEnd raw = some e ↔ HeadEndsAt raw e := by
  have hfind : findHeadEnd raw = Lib.Find.indexOf blankLine raw := by
    rw [findHeadEnd, headEndFrom_eq]
    simp
  rw [hfind]
  constructor
  · exact Lib.Find.indexOf_some
  · intro h
    have := h.le_length
    exact (Lib.Find.indexOf_eq_some (by omega)).mpr h

theorem blankLine_append {raw : Text} {k : Nat} (t : Text) (hk : k + 4 ≤ raw.length) :
    blankLine <+: (raw ++ t).drop k ↔ blankLine <+: raw.drop k := by
  rw [List.drop_append_of_le_length (by omega)]
  refine ⟨fun h => ?_, fun h => h.trans (List.prefix_append _ _)⟩
  refine List.prefix_of_prefix_length_le h (List.prefix_append _ _) ?_
  have hfour : blankLine.length = 4 := rfl
  rw [hfour, List.length_drop]
  omega

theorem HeadEndsAt.append {raw : Text} {e : Nat} (h : HeadEndsAt raw e) (t : Text) :
    HeadEndsAt (raw ++ t) e := by
  have hlen := h.le_length
  refine ⟨(blankLine_append t hlen).mpr h.1, fun k hk hhit => ?_⟩
  exact h.2 k hk ((blankLine_append t (by omega)).mp hhit)

/-- A blank line that is not found yet is not there as a whole. -/
theorem HeadEndsAt.length_lt {raw t : Text} {e : Nat} (h : HeadEndsAt (raw ++ t) e)
    (hnone : findHeadEnd raw = none) : raw.length < e + 4 := by
  by_contra hlen
  have hraw : HeadEndsAt raw e := by
    refine ⟨(blankLine_append t (by omega)).mp h.1, fun k hk hhit => ?_⟩
    exact h.2 k hk ((blankLine_append t (by omega)).mpr hhit)
  rw [findHeadEnd_eq_some.mpr hraw] at hnone
  cases hnone

theorem HeadEndsAt.getElem? {raw : Text} {e : Nat} (h : HeadEndsAt raw e) :
    raw[e]? = some '\r' ∧ raw[e + 1]? = some '\n' := by
  obtain ⟨w, hw⟩ := h.1
  have hget : ∀ i, raw[e + i]? = (raw.drop e)[i]? := fun i => (List.getElem?_drop).symm
  refine ⟨?_, ?_⟩
  · rw [← Nat.add_zero e, hget, ← hw]
    rfl
  · rw [hget, ← hw]
    rfl

/-! ## The answer on a head -/

section
variable (lim : OrbitHttpLimits)

/-- The bytes of the header lines, when all of them count. -/
def headerBytes (raw : Text) (e : Nat) : Nat := e - headerStart lim raw

/-- The header bytes stay so far below the limit that they do with the blank line, or exceed it
without. -/
def HeaderClear (raw : Text) : Prop :=
  lineTooLong lim raw = false → ∀ e, HeadEndsAt raw e → headerStart lim raw ≤ e →
    headerBytes lim raw e + 3 ≤ lim.maxHeaderBytes ∨ lim.maxHeaderBytes < headerBytes lim raw e

variable {lim} {raw : Text} (t : Text)

theorem lineEnd_lt {p : Nat} (h : lineEnd lim raw = some p) :
    p < raw.length ∧ p < lim.maxRequestLine + 2 := by
  obtain ⟨-, hlt, -⟩ := memchr_eq_some.mp h
  split at hlt <;> omega

theorem lineEnd_append {p : Nat} (h : lineEnd lim raw = some p) :
    lineEnd lim (raw ++ t) = some p := by
  have hlt := lineEnd_lt h
  apply memchr_append t h
  rw [List.length_append]
  split <;> omega

theorem lineTooLong_append (h : lineTooLong lim raw = true) :
    lineTooLong lim (raw ++ t) = true := by
  rw [lineTooLong] at h
  cases hline : lineEnd lim raw with
  | some p =>
    have hlt := lineEnd_lt hline
    rw [hline] at h
    rw [lineTooLong, lineEnd_append t hline]
    simp only [List.getD_append _ _ _ _ (show p - 1 < raw.length by omega)]
    exact h
  | none =>
    rw [hline] at h
    have hlen : lim.maxRequestLine + 1 < raw.length := of_decide_eq_true h
    have hnone : lineEnd lim (raw ++ t) = none := by
      rw [lineEnd, if_neg (by omega)] at hline
      rw [lineEnd, if_neg (by rw [List.length_append]; omega)]
      exact memchr_append_none t hline (by omega)
    rw [lineTooLong, hnone]
    exact decide_eq_true (by rw [List.length_append]; omega)

/-- A line that is not refused is as long with more bytes behind. -/
theorem lineTooLong_append_eq {p : Nat} (h : lineEnd lim raw = some p) :
    lineTooLong lim (raw ++ t) = lineTooLong lim raw := by
  have hlt := lineEnd_lt h
  rw [lineTooLong, lineTooLong, h, lineEnd_append t h]
  simp only [List.getD_append _ _ _ _ (show p - 1 < raw.length by omega)]

/-- Without a line end there are no header bytes and no blank line. -/
theorem no_line {lim : OrbitHttpLimits} {raw : Text} (h : lineEnd lim raw = none)
    (hshort : lineTooLong lim raw = false) :
    findHeadEnd raw = none ∧ headersTooLarge lim raw = false := by
  rw [lineTooLong, h] at hshort
  have hlen : raw.length ≤ lim.maxRequestLine + 1 := Nat.le_of_not_lt (of_decide_eq_false hshort)
  have hnone : findHeadEnd raw = none := by
    cases hfind : findHeadEnd raw with
    | none => rfl
    | some e =>
      have he := findHeadEnd_eq_some.mp hfind
      have hle := he.le_length
      rw [lineEnd, if_pos (by omega)] at h
      exact absurd he.getElem?.2 (memchr_eq_none.mp h (e + 1) (Nat.zero_le _) (by omega))
  refine ⟨hnone, ?_⟩
  rw [headersTooLarge, headerStop, hnone, headerStart, h]
  simp

theorem headerStart_append {p : Nat} (h : lineEnd lim raw = some p) :
    headerStart lim (raw ++ t) = headerStart lim raw := by
  rw [headerStart, headerStart, h, lineEnd_append t h]

theorem headersTooLarge_append_eq {p e : Nat} (h : lineEnd lim raw = some p)
    (he : HeadEndsAt raw e) : headersTooLarge lim (raw ++ t) = headersTooLarge lim raw := by
  have hlen := he.le_length
  have hstop : headerStop raw = e := by rw [headerStop, findHeadEnd_eq_some.mpr he]; rfl
  have hstop' : headerStop (raw ++ t) = e := by
    rw [headerStop, findHeadEnd_eq_some.mpr (he.append t)]
    rfl
  rw [headersTooLarge, headersTooLarge, hstop, hstop', headerStart_append t h,
    findHeadEnd_eq_some.mpr he, findHeadEnd_eq_some.mpr (he.append t),
    List.take_append_of_le_length (by omega)]

/-- A refusal for the headers stands, when it does not count bytes of the blank line. -/
theorem headersTooLarge_append (hclear : HeaderClear lim (raw ++ t))
    (hshort : lineTooLong lim raw = false) (h : headersTooLarge lim raw = true) :
    headersTooLarge lim (raw ++ t) = true := by
  cases hline : lineEnd lim raw with
  | none =>
    rw [(no_line hline hshort).2] at h
    cases h
  | some p =>
    cases hfind : findHeadEnd raw with
    | some e => rw [headersTooLarge_append_eq t hline (findHeadEnd_eq_some.mp hfind), h]
    | none =>
      have hstart : headerStart lim raw = p + 1 := by rw [headerStart, hline]
      rw [headersTooLarge, headerStop, hfind, hstart] at h
      simp only [Option.getD_none, Option.isSome_none, Bool.false_and, Bool.or_false,
        decide_eq_true_eq] at h
      rw [headersTooLarge, headerStop, headerStart_append t hline, hstart]
      cases hwhole : findHeadEnd (raw ++ t) with
      | none =>
        rw [Option.getD_none, List.length_append]
        simp only [Bool.or_eq_true, decide_eq_true_eq]
        exact .inl (by omega)
      | some e =>
        have he := findHeadEnd_eq_some.mp hwhole
        have hlate := he.length_lt hfind
        have hne : e ≠ p := by
          rintro rfl
          obtain ⟨-, -, hp, -⟩ := memchr_eq_some.mp (lineEnd_append t hline)
          rw [he.getElem?.1] at hp
          cases hp
        have hpos := lim.header_pos
        have := hclear (by rw [lineTooLong_append_eq t hline, hshort]) e he
        rw [headerBytes, headerStart_append t hline, hstart] at this
        rw [Option.getD_some]
        simp only [Bool.or_eq_true, decide_eq_true_eq]
        exact .inl (by omega)

/-- What is asked of the lengths of a head that is within the limits. -/
theorem readHead_eq {e : Nat} (hline : lineTooLong lim raw = false)
    (hheaders : headersTooLarge lim raw = false) (he : HeadEndsAt raw e) :
    readHead lim raw =
      let st := scanHead (raw.take (e + 4))
      if st.teChunked then .refuse .chunked
      else if st.clBad then .refuse .length
      else if st.clSeen ∧ st.clValue > 0 ∧ st.clValue > lim.maxBody then .refuse .body
      else if raw.length < e + 4 + st.contentLength then .more
      else .complete e st.contentLength := by
  simp only [readHead, hline, hheaders, findHeadEnd_eq_some.mpr he, Bool.false_eq_true, if_false]

/-- How a head is answered. -/
theorem readHead_cases (lim : OrbitHttpLimits) (raw : Text) :
    (lineTooLong lim raw = true ∧ readHead lim raw = .refuse .line) ∨
      (lineTooLong lim raw = false ∧ headersTooLarge lim raw = true ∧
        readHead lim raw = .refuse .headers) ∨
      (findHeadEnd raw = none ∧ readHead lim raw = .more) ∨
      (lineTooLong lim raw = false ∧ headersTooLarge lim raw = false ∧ ∃ e, HeadEndsAt raw e) := by
  by_cases hline : lineTooLong lim raw = true
  · exact .inl ⟨hline, by rw [readHead, if_pos hline]⟩
  by_cases hheaders : headersTooLarge lim raw = true
  · exact .inr (.inl ⟨by simpa using hline, hheaders, by rw [readHead, if_neg hline, if_pos hheaders]⟩)
  cases hfind : findHeadEnd raw with
  | none => exact .inr (.inr (.inl ⟨rfl, by simp [readHead, hline, hheaders, hfind]⟩))
  | some e =>
    exact .inr (.inr (.inr ⟨by simpa using hline, by simpa using hheaders, e,
      findHeadEnd_eq_some.mp hfind⟩))

/-- Within the limits, the head is within them with more bytes behind. -/
theorem within_append {e : Nat} (hline : lineTooLong lim raw = false)
    (hheaders : headersTooLarge lim raw = false) (he : HeadEndsAt raw e) :
    lineTooLong lim (raw ++ t) = false ∧ headersTooLarge lim (raw ++ t) = false ∧
      HeadEndsAt (raw ++ t) e ∧ (raw ++ t).take (e + 4) = raw.take (e + 4) := by
  cases hend : lineEnd lim raw with
  | none =>
    have := (no_line hend hline).1
    rw [findHeadEnd_eq_some.mpr he] at this
    cases this
  | some p =>
    exact ⟨by rw [lineTooLong_append_eq t hend, hline],
      by rw [headersTooLarge_append_eq t hend he, hheaders], he.append t,
      List.take_append_of_le_length he.le_length⟩

/-- A complete head is read alike with more bytes behind. -/
theorem readHead_complete_append {e cl : Nat} (h : readHead lim raw = .complete e cl) :
    readHead lim (raw ++ t) = .complete e cl := by
  rcases readHead_cases lim raw with ⟨-, hr⟩ | ⟨-, -, hr⟩ | ⟨-, hr⟩ | ⟨hline, hheaders, e', he⟩
  · rw [hr] at h
    cases h
  · rw [hr] at h
    cases h
  · rw [hr] at h
    cases h
  · obtain ⟨hline', hheaders', he', htake⟩ := within_append t hline hheaders he
    rw [readHead_eq hline hheaders he] at h
    rw [readHead_eq hline' hheaders' he', htake, List.length_append]
    dsimp only at h ⊢
    split_ifs at h with h1 h2 h3 h4
    rw [if_neg h1, if_neg h2, if_neg h3, if_neg (by omega), h]

theorem readHead_refuse_append (hclear : HeaderClear lim (raw ++ t)) {code : Perr}
    (h : readHead lim raw = .refuse code) : readHead lim (raw ++ t) = .refuse code := by
  rcases readHead_cases lim raw with
    ⟨hline, hr⟩ | ⟨hline, hheaders, hr⟩ | ⟨-, hr⟩ | ⟨hline, hheaders, e, he⟩
  · rw [← h, hr, readHead, if_pos (lineTooLong_append t hline)]
  · have hheaders' := headersTooLarge_append t hclear hline hheaders
    have hline' : lineTooLong lim (raw ++ t) = false := by
      cases hend : lineEnd lim raw with
      | none =>
        rw [(no_line hend hline).2] at hheaders
        cases hheaders
      | some p => rw [lineTooLong_append_eq t hend, hline]
    rw [← h, hr, readHead, hline', if_neg (by decide), if_pos hheaders']
  · rw [hr] at h
    cases h
  · obtain ⟨hline', hheaders', he', htake⟩ := within_append t hline hheaders he
    rw [readHead_eq hline hheaders he] at h
    rw [readHead_eq hline' hheaders' he', htake]
    dsimp only at h ⊢
    split_ifs at h with h1 h2 h3 h4
    · rw [if_pos h1, h]
    · rw [if_neg h1, if_pos h2, h]
    · rw [if_neg h1, if_neg h2, if_pos h3, h]

/-- A complete head ends with the first blank line, and the body that it announces is there. -/
theorem readHead_complete {e cl : Nat} (h : readHead lim raw = .complete e cl) :
    HeadEndsAt raw e ∧ cl = (scanHead (raw.take (e + 4))).contentLength ∧
      e + 4 + cl ≤ raw.length := by
  rcases readHead_cases lim raw with ⟨-, hr⟩ | ⟨-, -, hr⟩ | ⟨-, hr⟩ | ⟨hline, hheaders, e', he⟩
  · rw [hr] at h
    cases h
  · rw [hr] at h
    cases h
  · rw [hr] at h
    cases h
  · rw [readHead_eq hline hheaders he] at h
    dsimp only at h
    split_ifs at h with h1 h2 h3 h4
    cases h
    exact ⟨he, rfl, by omega⟩

end

end Runtime.Http
