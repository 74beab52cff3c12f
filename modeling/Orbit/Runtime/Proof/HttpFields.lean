import Mathlib.Data.List.TakeWhile
import Orbit.Runtime.HttpFields
import Orbit.Runtime.Proof.Http

/-!
# What the scan of the head lines finds

The scan is a fold over the lines (`scanLines_eq`), so it finds a coding `chunked` that begins a
line's value and nothing else (`refused_chunked_iff`), and a length that all lines it takes for
`Content-Length` agree on as it reads them (`readHead_eq_answer`), which is the denoted one exactly
under the condition of `readHead_length_iff`. In a head without folded lines and look-alikes only
a malformed field can break it (`sameLength_unfolded`).
-/

namespace Runtime.Http

open Lib.Decimal (isDigit digitsValue)

/-! ## The scan by lines -/

theorem scanLines_eq (st : HeadScan) (line t : Text) :
    scanLines st line t = (linesFrom line t).foldl scanLine st := by
  induction t generalizing st line with
  | nil => rfl
  | cons c t ih =>
    rw [scanLines, linesFrom]
    by_cases hc : c = '\n'
    · rw [if_pos hc, if_pos hc, List.foldl_cons, ih]
    · rw [if_neg hc, if_neg hc, ih]

/-- A character in lower case is the character itself or stands for one in upper case. -/
theorem toLower_eq {c w : Char} (h : c.toLower = w) :
    c = w ∨ (c.toNat + 32 = w.toNat ∧ 65 ≤ c.toNat) := by
  delta Char.toLower at h
  split at h
  · rename_i hc
    right
    have hle : c.toNat ≤ 90 := hc.2
    have hge : 65 ≤ c.toNat := hc.1
    refine ⟨?_, hge⟩
    rw [← h, Char.toNat, Char.toNat, UInt32.toNat_add]
    have h32 : ('a'.val - 'A'.val).toNat = 32 := rfl
    rw [Char.toNat] at hle
    omega
  · exact .inl h

theorem eq_of_toNat {c d : Char} (h : c.toNat = d.toNat) : c = d :=
  Char.ext (UInt32.toNat_inj.mp h)

/-- A text that starts with a word starts with its first letter. -/
theorem startsCaseless_head {word : String} {w : Char} {ws : List Char} {t : Text}
    (hword : word.toList = w :: ws) (h : startsCaseless word t = true) :
    (t.headD nul).toLower = w := by
  rw [startsCaseless, hword, decide_eq_true_eq] at h
  cases t with
  | nil => simp at h
  | cons c t =>
    simp only [List.length_cons, List.take_succ_cons, List.map_cons, List.cons.injEq] at h
    exact h.1

theorem startsCaseless_length {word : String} {t : Text} (h : startsCaseless word t = true) :
    word.toList.length ≤ t.length := by
  rw [startsCaseless, decide_eq_true_eq] at h
  have := congrArg List.length h
  rw [List.length_map, List.length_take] at this
  omega

/-- The first letter of a line that starts with `transfer-encoding:`. -/
theorem startsCaseless_te {line : Text} (h : startsCaseless "transfer-encoding:" line = true) :
    line.headD nul = 't' ∨ line.headD nul = 'T' := by
  rcases toLower_eq (startsCaseless_head (w := 't') rfl h) with hc | hc
  · exact .inl hc
  · exact .inr (eq_of_toNat (d := 'T') (Nat.add_right_cancel hc.1))

/-- The first letter of a line that starts with `content-length:`. -/
theorem startsCaseless_cl {line : Text} (h : startsCaseless "content-length:" line = true) :
    line.headD nul = 'c' ∨ line.headD nul = 'C' := by
  rcases toLower_eq (startsCaseless_head (w := 'c') rfl h) with hc | hc
  · exact .inl hc
  · exact .inr (eq_of_toNat (d := 'C') (Nat.add_right_cancel hc.1))

theorem not_cl_of_te {line : Text} (h : startsCaseless "transfer-encoding:" line = true) :
    startsCaseless "content-length:" line = false := by
  by_contra hcl
  have hc := startsCaseless_cl (by simpa using hcl)
  rcases startsCaseless_te h with ht | ht <;> rw [ht] at hc <;> revert hc <;> decide

/-- What a line adds to the scan. -/
theorem scanLine_eq (st : HeadScan) (line : Text) :
    scanLine st line =
      if beginsChunked line then { st with teChunked := true }
      else if isLengthLine line then scanLength st (line.drop 15)
      else st := by
  have hblank : (fun c => c = ' ' || c = '\t' : Char → Bool) = isBlank := rfl
  rw [scanLine, beginsChunked, isLengthLine]
  dsimp only
  rw [hblank]
  by_cases hte : startsCaseless "transfer-encoding:" line = true
  · have hlen18 : 18 ≤ line.length := startsCaseless_length hte
    have hcl := not_cl_of_te hte
    rw [if_pos (by omega)]
    by_cases hlen : line.length > 19
    · have hseven : startsCaseless "chunked" ((line.drop 18).dropWhile isBlank) = true →
          7 ≤ ((line.drop 18).dropWhile isBlank).length := startsCaseless_length
      rw [if_pos ⟨startsCaseless_te hte, hlen, hte⟩]
      by_cases hch : startsCaseless "chunked" ((line.drop 18).dropWhile isBlank) = true
      · simp [hlen, hte, hch, hseven hch]
      · simp [hch, hcl]
    · simp [hlen, hcl]
  · by_cases hcl : startsCaseless "content-length:" line = true
    · have hc := startsCaseless_cl hcl
      by_cases hlen : line.length > 15
      · rw [if_pos hlen, if_neg (fun h => hte h.2.2), if_pos ⟨hc, hcl⟩]
        simp [hlen, hte, hcl]
      · simp [hlen, hte]
    · simp [hte, hcl]

/-! ## Lengths -/

/-- The number that digits spell, on from `acc`. -/
def valueFrom (acc : Nat) (ds : Text) : Nat := ds.foldl (fun n c => n * 10 + (c.toNat - 48)) acc

theorem le_valueFrom (acc : Nat) (ds : Text) : acc ≤ valueFrom acc ds := by
  induction ds generalizing acc with
  | nil => exact Nat.le_refl _
  | cons c ds ih =>
    have := ih (acc * 10 + (c.toNat - 48))
    rw [valueFrom, List.foldl_cons]
    rw [valueFrom] at this
    omega

theorem digitsValue_eq (ds : Text) : (digitsValue ds).toNat = valueFrom 0 ds := by
  have key : ∀ (l : Text) (k : Nat),
      l.foldl (fun (n : Int) c => n * 10 + (c.toNat - 48 : Nat)) (k : Int) = valueFrom k l := by
    intro l
    induction l with
    | nil => exact fun k => rfl
    | cons c l ih =>
      intro k
      rw [List.foldl_cons, valueFrom, List.foldl_cons]
      exact_mod_cast ih (k * 10 + (c.toNat - 48))
  rw [digitsValue, show (0 : Int) = ((0 : Nat) : Int) from rfl, key, Int.toNat_natCast]

theorem isDigit_iff (c : Char) : isDigit c = true ↔ '0' ≤ c ∧ c ≤ '9' := by
  simp [isDigit]

/-- The digits are all read, and their value is capped. -/
theorem lengthDigits_eq (acc digits : Nat) (p : Text) (hacc : acc ≤ maxLength) :
    (lengthDigits acc digits p).1 = min (valueFrom acc (p.takeWhile isDigit)) maxLength ∧
      ((lengthDigits acc digits p).2 = 0 ↔ digits = 0 ∧ p.takeWhile isDigit = []) := by
  induction p generalizing acc digits with
  | nil => exact ⟨(Nat.min_eq_left hacc).symm, by simp [lengthDigits]⟩
  | cons c p ih =>
    rw [lengthDigits]
    by_cases hc : '0' ≤ c ∧ c ≤ '9'
    · have hdigit := (isDigit_iff c).mpr hc
      rw [if_pos hc, List.takeWhile_cons, if_pos hdigit]
      have hvalue : valueFrom acc (c :: p.takeWhile isDigit) =
          valueFrom (acc * 10 + (c.toNat - 48)) (p.takeWhile isDigit) := rfl
      have h48 : '0'.toNat = 48 := rfl
      have h57 : c.toNat ≤ 57 := hc.2
      dsimp only
      rw [h48]
      split
      · have := le_valueFrom (acc * 10 + (c.toNat - 48)) (p.takeWhile isDigit)
        rw [hvalue]
        refine ⟨?_, by simp⟩
        rw [maxLength]
        omega
      · obtain ⟨hfst, hsnd⟩ := ih (acc * 10 + (c.toNat - 48)) (digits + 1)
          (by rw [maxLength]; omega)
        refine ⟨by rw [hfst, hvalue], ?_⟩
        rw [hsnd]
        simp
    · have hdigit : ¬ isDigit c = true := mt (isDigit_iff c).mp hc
      rw [if_neg hc, List.takeWhile_cons, if_neg hdigit]
      exact ⟨(Nat.min_eq_left hacc).symm, by simp⟩

/-- What is read of the text `p` behind the blanks. -/
theorem scanLength_eq (st : HeadScan) (p : Text) :
    scanLength st p =
      let q := p.dropWhile isLengthBlank
      let neg := q.head? = some '-'
      let q := if q.head? = some '-' ∨ q.head? = some '+' then q.drop 1 else q
      let ds := q.takeWhile isDigit
      let n := min (valueFrom 0 ds) maxLength
      let v : Int := if ds = [] then 0 else if neg then -n else n
      let st := if ds = [] ∨ neg then { st with clBad := true } else st
      if ¬ st.clSeen then { st with clValue := v, clSeen := true }
      else if v ≠ st.clValue then { st with clBad := true }
      else st := by
  rw [scanLength]
  dsimp only
  generalize (if (p.dropWhile isLengthBlank).head? = some '-' ∨
    (p.dropWhile isLengthBlank).head? = some '+' then (p.dropWhile isLengthBlank).drop 1
    else p.dropWhile isLengthBlank) = q
  obtain ⟨hfst, hsnd⟩ := lengthDigits_eq 0 0 q (Nat.zero_le _)
  have hsnd : (lengthDigits 0 0 q).2 = 0 ↔ q.takeWhile isDigit = [] := by simp [hsnd]
  simp only [hfst, hsnd]

/-- A number that is read is the length of the line. -/
theorem scanLength_some {p : Text} {n : Nat} (st : HeadScan) (h : lenientNumber p = some n) :
    scanLength st p =
      if st.clSeen = false then { st with clValue := n, clSeen := true }
      else if (n : Int) ≠ st.clValue then { st with clBad := true }
      else st := by
  rw [scanLength_eq]
  rw [lenientNumber] at h
  dsimp only at h ⊢
  generalize p.dropWhile isLengthBlank = q at h ⊢
  have hneg : q.head? ≠ some '-' := by
    intro hq
    cases q with
    | nil => cases hq
    | cons c q =>
      cases hq
      simp [isDigit] at h
  simp only [hneg, false_or, or_false]
  generalize (if q.head? = some '+' then q.drop 1 else q).takeWhile isDigit = ds at h ⊢
  by_cases hds : ds = []
  · rw [if_pos hds] at h
    cases h
  · rw [if_neg hds, Option.some.injEq, digitsValue_eq] at h
    simp only [hds, if_false, h, Bool.not_eq_true]

/-- A line without a number spoils the scan. -/
theorem scanLength_none {p : Text} (st : HeadScan) (h : lenientNumber p = none) :
    (scanLength st p).clBad = true ∧ (scanLength st p).clSeen = true ∧
      (scanLength st p).teChunked = st.teChunked := by
  rw [scanLength_eq]
  rw [lenientNumber] at h
  dsimp only at h ⊢
  generalize p.dropWhile isLengthBlank = q at h ⊢
  have hbad : (if q.head? = some '-' ∨ q.head? = some '+' then q.drop 1 else q).takeWhile
      isDigit = [] ∨ q.head? = some '-' := by
    by_cases hneg : q.head? = some '-'
    · exact .inr hneg
    · simp only [hneg, false_or, or_false]
      by_contra hds
      rw [if_neg hds] at h
      cases h
  rw [if_pos hbad]
  cases hseen : st.clSeen with
  | false => simp
  | true => simp

theorem agreed_append (rs : List (Option Nat)) (r : Option Nat) :
    agreed (rs ++ [r]) = if rs = [] ∨ agreed rs = r then r else none := by
  cases rs with
  | nil => simp [agreed]
  | cons r' rs =>
    simp only [List.cons_append, agreed, List.all_append, List.all_cons, List.all_nil,
      Bool.and_true, reduceCtorEq, false_or]
    by_cases hall : rs.all (· = r') = true
    · by_cases hr : r = r'
      · simp [hall, hr]
      · simp [hall, hr, Ne.symm hr]
    · by_cases hr : r = none
      · simp [hall, hr]
      · simp [hall, Ne.symm hr]

/-- What the scan has found: whether a line begins with `chunked`, and what the lengths are
read as. -/
structure Scanned (st : HeadScan) (chunked : Bool) (rs : List (Option Nat)) : Prop where
  chunked : st.teChunked = chunked
  seen : st.clSeen = true ↔ rs ≠ []
  bad : st.clBad = true ↔ agreed rs = none
  value : ∀ n, agreed rs = some n → rs ≠ [] → st.clValue = n

section
variable {st : HeadScan} {chunked : Bool} {rs : List (Option Nat)} (h : Scanned st chunked rs)
include h

theorem Scanned.length (p : Text) :
    Scanned (scanLength st p) chunked (rs ++ [lenientNumber p]) := by
  cases hp : lenientNumber p with
  | none =>
    obtain ⟨hbad, hseen, hte⟩ := scanLength_none st hp
    have hnone : agreed (rs ++ [none]) = none := by rw [agreed_append]; split <;> rfl
    exact ⟨hte.trans h.chunked, by simp [hseen], by simp [hbad, hnone],
      fun n hn => by rw [hnone] at hn; cases hn⟩
  | some n =>
    rw [scanLength_some st hp]
    cases hseen : st.clSeen with
    | false =>
      have hrs : rs = [] := by
        by_contra hrs
        rw [h.seen.mpr hrs] at hseen
        cases hseen
      have hbad := h.bad
      rw [hrs] at hbad ⊢
      exact ⟨h.chunked, by simp, by simpa [agreed] using hbad, by simp [agreed]⟩
    | true =>
      have hrs := h.seen.mp hseen
      rw [if_neg (by decide)]
      by_cases hn : agreed rs = some n
      · have hgood : ¬ agreed rs = none := by simp [hn]
        rw [if_neg (by simpa using (h.value n hn hrs).symm)]
        refine ⟨h.chunked, by simp [hseen], ?_, ?_⟩
        · rw [h.bad, agreed_append]
          simp [hn]
        · intro m hm _
          rw [agreed_append, if_pos (.inr hn)] at hm
          cases hm
          exact h.value n hn hrs
      · have hnone : agreed (rs ++ [some n]) = none := by
          rw [agreed_append, if_neg (by simp [hrs, hn])]
        by_cases hvalue : (n : Int) = st.clValue
        · have hbad : agreed rs = none := by
            cases ha : agreed rs with
            | none => rfl
            | some m =>
              rw [h.value m ha hrs] at hvalue
              exact absurd (ha.trans (congrArg some (Int.ofNat_inj.mp hvalue).symm)) hn
          rw [if_neg (by simpa using hvalue)]
          exact ⟨h.chunked, by simp [hseen], by simp [h.bad.mpr hbad, hnone],
            fun m hm => by rw [hnone] at hm; cases hm⟩
        · rw [if_pos hvalue]
          exact ⟨h.chunked, by simp, by simp [hnone],
            fun m hm => by rw [hnone] at hm; cases hm⟩

end

/-- The scan of the lines, one after the other. -/
theorem Scanned.lines {st : HeadScan} {chunked : Bool} {rs : List (Option Nat)}
    (h : Scanned st chunked rs) (lines : List Text) :
    Scanned (lines.foldl scanLine st) (chunked || lines.any beginsChunked)
      (rs ++ ((lines.filter isLengthLine).map (·.drop 15)).map lenientNumber) := by
  induction lines generalizing st chunked rs with
  | nil => simpa using h
  | cons line lines ih =>
    rw [List.foldl_cons, scanLine_eq, List.any_cons, ← Bool.or_assoc]
    by_cases hte : beginsChunked line = true
    · have hline : isLengthLine line = false := by
        rw [beginsChunked, Bool.and_eq_true, Bool.and_eq_true] at hte
        rw [isLengthLine, not_cl_of_te hte.1.2, Bool.and_false]
      rw [if_pos hte, hte, Bool.or_true, List.filter_cons_of_neg (by simp [hline])]
      exact ih ⟨rfl, h.seen, h.bad, h.value⟩
    · rw [if_neg hte, Bool.eq_false_iff.mpr hte, Bool.or_false]
      by_cases hline : isLengthLine line = true
      · rw [if_pos hline, List.filter_cons_of_pos hline, List.map_cons, List.map_cons,
          List.append_cons]
        exact ih (h.length _)
      · rw [if_neg hline, List.filter_cons_of_neg hline]
        exact ih h

theorem scanHead_scanned (head : Text) :
    Scanned (scanHead head) ((headLines head).any beginsChunked)
      ((lengthTexts head).map lenientNumber) := by
  have hstart : Scanned ⟨-1, false, false, false⟩ false [] :=
    ⟨rfl, by simp, by simp [agreed], fun _ _ h => absurd rfl h⟩
  rw [scanHead, scanLines_eq]
  exact hstart.lines (headLines head)

/-! ## The answer by lines -/

/-- A request without a body, with these header lines. -/
def request (fields : List String) : Text :=
  (["GET / HTTP/1.1"] ++ fields ++ [""]).flatMap fun line => line.toList ++ ['\r', '\n']

section
variable {lim : OrbitHttpLimits} {raw : Text} {e : Nat}

/-- A head that is not refused before is answered by its length, as the scan reads it. -/
theorem readHead_eq_answer (he : HeadEndsAt raw e) (hbefore : ¬ RefusedBefore lim raw e) :
    readHead lim raw = answerOf lim raw e (lenientLength (raw.take (e + 4))) := by
  have hline : lineTooLong lim raw = false := by
    by_contra h
    exact hbefore (.inl (by simpa using h))
  have hheaders : headersTooLarge lim raw = false := by
    by_contra h
    exact hbefore (.inr (.inl (by simpa using h)))
  have hscan := scanHead_scanned (raw.take (e + 4))
  have hchunked : (scanHead (raw.take (e + 4))).teChunked = false := by
    rw [hscan.chunked, List.any_eq_false]
    exact fun line hline hte => hbefore (.inr (.inr ⟨line, hline, hte⟩))
  rw [readHead_eq hline hheaders he]
  dsimp only
  rw [if_neg (by simp [hchunked])]
  cases hlen : lenientLength (raw.take (e + 4)) with
  | none => rw [if_pos (hscan.bad.mpr hlen), answerOf]
  | some n =>
    have hgood : ¬ (scanHead (raw.take (e + 4))).clBad = true := by
      rw [hscan.bad, ← lenientLength, hlen]
      nofun
    have hpos := lim.body_pos
    rw [if_neg hgood, answerOf]
    by_cases hnone : lengthTexts (raw.take (e + 4)) = []
    · have hseen : ¬ (scanHead (raw.take (e + 4))).clSeen = true := by simp [hscan.seen, hnone]
      have hzero : n = 0 := by simpa [lenientLength, hnone, agreed, eq_comm] using hlen
      have hlength : (scanHead (raw.take (e + 4))).contentLength = 0 := by
        rw [HeadScan.contentLength, if_neg (fun h => hseen h.1)]
      rw [hlength, hzero, if_neg (fun h => hseen h.1), if_neg (Nat.not_lt_zero _)]
    · have hseen : (scanHead (raw.take (e + 4))).clSeen = true := hscan.seen.mpr (by simp [hnone])
      have hvalue : (scanHead (raw.take (e + 4))).clValue = n :=
        hscan.value n hlen (by simp [hnone])
      have hlength : (scanHead (raw.take (e + 4))).contentLength = n := by
        rw [HeadScan.contentLength, hvalue]
        split <;> simp_all
      simp only [hseen, hvalue, hlength, true_and]
      by_cases hbody : n > lim.maxBody
      · rw [if_pos hbody, if_pos (by omega)]
      · rw [if_neg hbody, if_neg (by omega)]

theorem readHead_refused (he : HeadEndsAt raw e) (hbefore : RefusedBefore lim raw e) :
    ∃ code, readHead lim raw = .refuse code := by
  rcases readHead_cases lim raw with ⟨-, hr⟩ | ⟨-, -, hr⟩ | ⟨hnone, -⟩ | ⟨hline, hheaders, -⟩
  · exact ⟨_, hr⟩
  · exact ⟨_, hr⟩
  · rw [findHeadEnd_eq_some.mpr he] at hnone
    cases hnone
  · have hchunked : (scanHead (raw.take (e + 4))).teChunked = true := by
      rw [(scanHead_scanned _).chunked, List.any_eq_true]
      rcases hbefore with h | h | h
      · rw [hline] at h
        cases h
      · rw [hheaders] at h
        cases h
      · exact h
    exact ⟨.chunked, by rw [readHead_eq hline hheaders he]; simp only [hchunked, if_true]⟩

/-- What is refused, of the requests whose head is there. -/
theorem outcome_refused_iff (he : HeadEndsAt raw e) :
    (∃ code, (orbitHttpParseRequest lim raw).outcome = .refused code) ↔
      RefusedBefore lim raw e ∨ lenientLength (raw.take (e + 4)) = none ∨
        ∃ n, lenientLength (raw.take (e + 4)) = some n ∧ lim.maxBody < n := by
  by_cases hbefore : RefusedBefore lim raw e
  · obtain ⟨code, hcode⟩ := readHead_refused he hbefore
    exact ⟨fun _ => .inl hbefore, fun _ => ⟨code, by rw [orbitHttpParseRequest, hcode]⟩⟩
  · rw [orbitHttpParseRequest, readHead_eq_answer he hbefore]
    cases hlen : lenientLength (raw.take (e + 4)) with
    | none => simp [answerOf]
    | some n =>
      simp only [answerOf, hbefore, reduceCtorEq, false_or, Option.some.injEq, exists_eq_left']
      by_cases hbody : n > lim.maxBody
      · simp [hbody]
      · simp only [hbody, if_false, iff_false]
        by_cases hshort : raw.length < e + 4 + n
        · simp [hshort]
        · simp only [hshort, if_false]
          rintro ⟨code, hcode⟩
          rcases splitRequest_cases raw e n with ⟨-, h⟩ | ⟨_, _, _, -, -, h, -⟩
          · rw [h] at hcode
            cases hcode
          · rw [h] at hcode
            cases hcode

/-- **A request that names `chunked` is refused** exactly when a line's value begins with the word,
or another ground refuses the request. -/
theorem refused_chunked_iff (he : HeadEndsAt raw e) :
    (NamesChunked (raw.take (e + 4)) →
        ∃ code, (orbitHttpParseRequest lim raw).outcome = .refused code) ↔
      (NamesChunked (raw.take (e + 4)) →
        RefusedBefore lim raw e ∨ lenientLength (raw.take (e + 4)) = none ∨
          ∃ n, lenientLength (raw.take (e + 4)) = some n ∧ lim.maxBody < n) := by
  rw [outcome_refused_iff he]

/-- `chunked` alone is refused. -/
theorem refused_chunked :
    ∃ code, (orbitHttpParseRequest defaultLimits
      (request ["Transfer-Encoding: Chunked"])).outcome = .refused code :=
  (refused_chunked_iff (e := 42) (findHeadEnd_eq_some.mp (by decide))).mpr
    (fun _ => .inl (by decide)) (by decide)

/-- `gzip, chunked` is not, and the request is taken to have no body. -/
theorem chunked_second_accepted :
    ¬ ∀ (lim : OrbitHttpLimits) (raw : Text) (e : Nat), HeadEndsAt raw e →
      NamesChunked (raw.take (e + 4)) →
        ∃ code, (orbitHttpParseRequest lim raw).outcome = .refused code := by
  intro h
  obtain ⟨code, hcode⟩ := h defaultLimits
    (request ["Transfer-Encoding: gzip, chunked", "Content-Length: 0"]) 67
    (findHeadEnd_eq_some.mp (by decide)) (by decide)
  have hnot : (match (orbitHttpParseRequest defaultLimits
      (request ["Transfer-Encoding: gzip, chunked", "Content-Length: 0"])).outcome with
    | .refused _ => false
    | _ => true) = true := by decide
  rw [hcode] at hnot
  cases hnot

theorem RefusedBefore.of_append {t : Text} (he : HeadEndsAt raw e)
    (h : RefusedBefore lim (raw ++ t) e) : RefusedBefore lim raw e := by
  by_contra hbefore
  rw [RefusedBefore, not_or, not_or] at hbefore
  obtain ⟨hline, hheaders, hchunked⟩ := hbefore
  obtain ⟨hline', hheaders', -, htake⟩ :=
    within_append t (by simpa using hline) (by simpa using hheaders) he
  rcases h with h | h | h
  · rw [hline'] at h
    cases h
  · rw [hheaders'] at h
    cases h
  · exact hchunked (htake ▸ h)

/-- With enough bytes behind the head, the answer tells the lengths apart. -/
theorem answerOf_inj {lengths lengths' : Option Nat}
    (h : ∀ t, answerOf lim (raw ++ t) e lengths = answerOf lim (raw ++ t) e lengths') :
    lengths = lengths' ∨
      ∃ n m, lengths = some n ∧ lengths' = some m ∧ lim.maxBody < n ∧ lim.maxBody < m := by
  have hcases : ∀ {n : Nat} {t : Text}, answerOf lim t e (some n) ≠ .refuse .length := by
    intro n t
    rw [answerOf]
    split_ifs <;> nofun
  cases lengths with
  | none =>
    cases lengths' with
    | none => exact .inl rfl
    | some m => exact absurd (h []).symm hcases
  | some n =>
    cases lengths' with
    | none => exact absurd (h []) hcases
    | some m =>
      have := h (List.replicate (e + 4 + n + m) nul)
      simp only [answerOf, List.length_append, List.length_replicate] at this
      by_cases hn : n > lim.maxBody
      · by_cases hm : m > lim.maxBody
        · exact .inr ⟨n, m, rfl, rfl, hn, hm⟩
        · rw [if_pos hn, if_neg hm, if_neg (by omega)] at this
          cases this
      · rw [if_neg hn, if_neg (by omega)] at this
        by_cases hm : m > lim.maxBody
        · rw [if_pos hm] at this
          cases this
        · rw [if_neg hm, if_neg (by omega)] at this
          cases this
          exact .inl rfl

/-! ## The condition on the lengths -/

theorem agreed_eq_some {number : Text → Option Nat} {ts : List Text} {n : Nat} :
    agreed (ts.map number) = some n ↔ AllRead number ts n := by
  cases ts with
  | nil => simp [agreed, AllRead, eq_comm]
  | cons t ts =>
    rw [List.map_cons, agreed, AllRead]
    by_cases hall : (ts.map number).all (· = number t) = true
    · rw [if_pos hall]
      rw [List.all_map, List.all_eq_true] at hall
      refine ⟨fun ht => ⟨by simp, List.forall_mem_cons.mpr ⟨ht, fun u hu => ?_⟩⟩,
        fun h => h.2 t List.mem_cons_self⟩
      rw [← ht]
      exact of_decide_eq_true (hall u hu)
    · rw [if_neg hall]
      refine ⟨nofun, fun h => absurd ?_ hall⟩
      rw [List.all_map, List.all_eq_true]
      intro u hu
      exact decide_eq_true ((h.2 u (List.mem_cons_of_mem _ hu)).trans
        (h.2 t List.mem_cons_self).symm)

theorem agreed_eq_none {number : Text → Option Nat} {ts : List Text} :
    agreed (ts.map number) = none ↔ Spoiled number ts := by
  constructor
  · intro h
    rw [Spoiled]
    by_contra hgood
    rw [not_or] at hgood
    obtain ⟨hread, hsame⟩ := hgood
    push Not at hread hsame
    obtain ⟨n, hn⟩ : ∃ n, AllRead number ts n := by
      cases ts with
      | nil => exact ⟨0, fun _ => rfl, fun t ht => absurd ht List.not_mem_nil⟩
      | cons t ts =>
        obtain ⟨n, hn⟩ := Option.ne_none_iff_exists'.mp (hread t List.mem_cons_self)
        exact ⟨n, nofun, fun u hu => (hsame u hu t List.mem_cons_self).trans hn⟩
    rw [agreed_eq_some.mpr hn] at h
    cases h
  · intro h
    cases ha : agreed (ts.map number) with
    | none => rfl
    | some n =>
      obtain ⟨-, hall⟩ := agreed_eq_some.mp ha
      rcases h with ⟨t, ht, hnone⟩ | ⟨t, ht, u, hu, hne⟩
      · rw [hall t ht] at hnone
        cases hnone
      · exact absurd ((hall t ht).trans (hall u hu).symm) hne

theorem sameLength_iff {head : Text} : SameLength lim head ↔
    lenientLength head = strictLength head ∨
      ∃ n m, lenientLength head = some n ∧ strictLength head = some m ∧ lim.maxBody < n ∧
        lim.maxBody < m := by
  simp only [SameLength, strictLength, lenientLength, ← agreed_eq_none, ← agreed_eq_some]
  generalize agreed ((fieldValues "content-length" head).map strictNumber) = strict
  generalize agreed ((lengthTexts head).map lenientNumber) = lenient
  cases strict with
  | none => simp
  | some n =>
    cases lenient with
    | none => simp
    | some m =>
      simp only [reduceCtorEq, false_and, false_or, Option.some.injEq, exists_and_left,
        exists_eq_left']
      tauto

/-! ## Heads without folded lines -/

theorem toLower_colon {c : Char} (h : c.toLower = ':') : c = ':' := by
  rcases toLower_eq h with h | ⟨h, hge⟩
  · exact h
  · have hcode : ':'.toNat = 58 := rfl
    omega

/-- A line starts with a word and a colon when what stands in front of its first colon is the
word. -/
theorem take_colon {w : Text} (hw : ':' ∉ w) (line : Text) :
    (line.take (w.length + 1)).map Char.toLower = w ++ [':'] ↔
      ':' ∈ line ∧ (line.takeWhile (· ≠ ':')).map Char.toLower = w := by
  induction line generalizing w with
  | nil => simp
  | cons c line ih =>
    rw [List.take_succ_cons, List.map_cons, List.takeWhile_cons]
    by_cases hc : c = ':'
    · subst hc
      cases w with
      | nil => simp
      | cons x w =>
        have hx : ':' ≠ x := fun h => hw (h ▸ List.mem_cons_self)
        have hlower : ':'.toLower = ':' := by decide
        simp [hlower, hx]
    · rw [if_pos (by simpa using hc), List.map_cons, List.mem_cons]
      cases w with
      | nil =>
        have hlower : c.toLower ≠ ':' := fun h => hc (toLower_colon h)
        simp [hlower]
      | cons x w =>
        have htail := ih fun h => hw (List.mem_cons_of_mem _ h)
        rw [List.length_cons, List.cons_append, List.cons.injEq, htail, List.cons.injEq]
        have hne : ':' ≠ c := fun h => hc h.symm
        simp only [hne, false_or]
        tauto

theorem drop_colon (line : Text) :
    (line.dropWhile (· ≠ ':')).drop 1 = line.drop ((line.takeWhile (· ≠ ':')).length + 1) := by
  have hleft := @List.drop_left _ (line.takeWhile (· ≠ ':')) (line.dropWhile (· ≠ ':'))
  rw [List.takeWhile_append_dropWhile] at hleft
  rw [← List.drop_drop, hleft]

/-- A line by itself is a field of the length when it starts with `content-length:`. -/
theorem fieldOf_length (line : Text) :
    ((fieldOf line).bind fun f => if isCaseless "content-length" f.1 then some f.2 else none) =
      if startsCaseless "content-length:" line then some (trim (dropCr (line.drop 15)))
      else none := by
  have hstarts : startsCaseless "content-length:" line = true ↔
      ':' ∈ line ∧ isCaseless "content-length" (line.takeWhile (· ≠ ':')) = true := by
    rw [startsCaseless, isCaseless, decide_eq_true_eq, decide_eq_true_eq]
    exact take_colon (w := "content-length".toList) (by decide) line
  rw [fieldOf]
  by_cases hcolon : ':' ∈ line
  · rw [if_pos hcolon, Option.bind_some]
    by_cases hname : isCaseless "content-length" (line.takeWhile (· ≠ ':')) = true
    · have hlength := congrArg List.length (of_decide_eq_true hname)
      rw [List.length_map] at hlength
      rw [if_pos hname, if_pos (hstarts.mpr ⟨hcolon, hname⟩), drop_colon, hlength]
      rfl
    · rw [if_neg hname, if_neg fun h => hname (hstarts.mp h).2]
  · rw [if_neg hcolon, if_neg fun h => hcolon (hstarts.mp h).1]
    rfl

theorem unfoldLines_self {lines : List Text}
    (h : ∀ line ∈ lines, isBlank (line.headD nul) = false) : unfoldLines lines = lines := by
  induction lines with
  | nil => rfl
  | cons line rest ih =>
    rw [unfoldLines, ih fun l hl => h l (List.mem_cons_of_mem _ hl)]
    cases rest with
    | nil => rfl
    | cons next more =>
      have hnext := h next (List.mem_cons_of_mem _ List.mem_cons_self)
      dsimp only
      rw [if_neg (Bool.eq_false_iff.mp hnext)]

/-- The fields are the lines that the scan takes for lengths. -/
theorem fieldValues_unfolded {head : Text} (h : Unfolded head) :
    fieldValues "content-length" head = (lengthTexts head).map fun t => trim (dropCr t) := by
  have hlines : ∀ lines : List Text,
      (∀ line ∈ lines, startsCaseless "content-length:" line = true → 15 < line.length) →
      (lines.filterMap fieldOf).filterMap
          (fun f => if isCaseless "content-length" f.1 then some f.2 else none) =
        ((lines.filter isLengthLine).map (·.drop 15)).map fun t => trim (dropCr t) := by
    intro lines hlong
    rw [List.filterMap_filterMap]
    simp only [fieldOf_length]
    induction lines with
    | nil => rfl
    | cons line lines ih =>
      have hrest := ih fun l hl => hlong l (List.mem_cons_of_mem _ hl)
      by_cases hstarts : startsCaseless "content-length:" line = true
      · have hline : isLengthLine line = true := by
          simp [isLengthLine, hstarts, hlong line List.mem_cons_self hstarts]
        rw [List.filterMap_cons_some (by rw [if_pos hstarts]), List.filter_cons_of_pos hline,
          hrest, List.map_cons, List.map_cons]
      · have hline : ¬ isLengthLine line = true := by simp [isLengthLine, hstarts]
        rw [List.filterMap_cons_none (by rw [if_neg hstarts]), List.filter_cons_of_neg hline,
          hrest]
  have htail : (headLines head).filter isLengthLine = (headLines head).tail.filter isLengthLine := by
    have hrequest := h.request
    cases hl : headLines head with
    | nil => rfl
    | cons line lines =>
      rw [hl] at hrequest
      rw [List.filter_cons_of_neg (by simp [hrequest line rfl]), List.tail_cons]
  rw [fieldValues, unfoldLines_self fun l hl => h.starts l (List.mem_of_mem_tail hl),
    hlines _ h.goesOn, lengthTexts, htail]

/-- A text is what stands between the blanks around it. -/
theorem eq_trim (t : Text) : ∃ b b' : Text, (∀ c ∈ b, isBlank c = true) ∧
    (∀ c ∈ b', isBlank c = true) ∧ t = b ++ (trim t ++ b') := by
  refine ⟨t.takeWhile isBlank, (((t.dropWhile isBlank).reverse).takeWhile isBlank).reverse,
    fun c hc => List.mem_takeWhile_imp hc,
    fun c hc => List.mem_takeWhile_imp (List.mem_reverse.mp hc), ?_⟩
  rw [trim, ← List.reverse_append, List.takeWhile_append_dropWhile, List.reverse_reverse,
    List.takeWhile_append_dropWhile]

theorem eq_dropCr (line : Text) : ∃ b : Text, (∀ c ∈ b, c = '\r') ∧ line = dropCr line ++ b := by
  rw [dropCr]
  by_cases hlast : line.getLast? = some '\r'
  · rw [if_pos hlast]
    exact ⟨['\r'], by simp, (List.dropLast_append_getLast? _ hlast).symm⟩
  · rw [if_neg hlast]
    exact ⟨[], by simp, (List.append_nil _).symm⟩

/-- Behind blanks and in front of other characters the scan reads the number of the field. -/
theorem lenientNumber_of_strict {t : Text} {n : Nat}
    (h : strictNumber (trim (dropCr t)) = some n) : lenientNumber t = some n := by
  rw [strictNumber] at h
  obtain ⟨b, b', hb, hb', hv⟩ := eq_trim (dropCr t)
  obtain ⟨cr, hcr, ht⟩ := eq_dropCr t
  generalize trim (dropCr t) = v at h hv
  split at h
  case isFalse => cases h
  case isTrue hgood =>
    obtain ⟨hne, hdigits, hrange⟩ := hgood
    rw [List.all_eq_true] at hdigits
    obtain ⟨c, v, rfl⟩ := List.exists_cons_of_ne_nil hne
    have hc := hdigits c List.mem_cons_self
    have hskip : t.dropWhile isLengthBlank = (c :: v) ++ (b' ++ cr) := by
      rw [ht, hv, List.append_assoc, List.dropWhile_append_of_pos, List.append_assoc,
        List.cons_append, List.dropWhile_cons_of_neg]
      · intro hblank
        revert hc
        simp only [isLengthBlank, Bool.or_eq_true, decide_eq_true_eq] at hblank
        rcases hblank with (((rfl | rfl) | rfl) | rfl) | rfl <;> decide
      · intro d hd
        have hblank := hb d hd
        simp only [isBlank, Bool.or_eq_true, decide_eq_true_eq] at hblank
        rcases hblank with rfl | rfl <;> decide
    have hplus : ((c :: v) ++ (b' ++ cr)).head? ≠ some '+' := by
      intro hhead
      cases hhead
      exact absurd hc (by decide)
    have hrest : (b' ++ cr).takeWhile isDigit = [] := by
      cases hl : b' ++ cr with
      | nil => rfl
      | cons d rest =>
        have hd : d ∈ b' ++ cr := hl ▸ List.mem_cons_self
        rw [List.takeWhile_cons_of_neg]
        rcases List.mem_append.mp hd with hd | hd
        · have hblank := hb' d hd
          simp only [isBlank, Bool.or_eq_true, decide_eq_true_eq] at hblank
          rcases hblank with rfl | rfl <;> decide
        · rw [hcr d hd]
          decide
    have hread : ((c :: v) ++ (b' ++ cr)).takeWhile isDigit = c :: v := by
      rw [List.takeWhile_append_of_pos hdigits, hrest, List.append_nil]
    rw [← h]
    simp only [lenientNumber, hskip, hplus, hread, hne, if_false, Nat.min_eq_left hrange]

/-- **Without folded lines and look-alikes** the scan reads the length of every head but those with
a malformed field in which all lines are read as one number. -/
theorem sameLength_unfolded {head : Text} (h : Unfolded head) : SameLength lim head ↔
    ((∃ v ∈ fieldValues "content-length" head, strictNumber v = none) →
      Spoiled lenientNumber (lengthTexts head)) := by
  have hvalues := fieldValues_unfolded h
  rw [SameLength]
  constructor
  · rintro (⟨-, hspoiled⟩ | ⟨n, m, hall, -⟩) ⟨v, hv, hnone⟩
    · exact hspoiled
    · rw [hall.2 v hv] at hnone
      cases hnone
  · intro hcond
    by_cases hbad : ∃ v ∈ fieldValues "content-length" head, strictNumber v = none
    · exact .inl ⟨.inl hbad, hcond hbad⟩
    · have hnumber : ∀ t ∈ lengthTexts head,
          ∃ n, strictNumber (trim (dropCr t)) = some n ∧ lenientNumber t = some n := by
        intro t ht
        have hv : trim (dropCr t) ∈ fieldValues "content-length" head :=
          hvalues ▸ List.mem_map_of_mem ht
        obtain ⟨n, hn⟩ := Option.ne_none_iff_exists'.mp fun hnone => hbad ⟨_, hv, hnone⟩
        exact ⟨n, hn, lenientNumber_of_strict hn⟩
      have hsame : (lengthTexts head).map lenientNumber =
          (fieldValues "content-length" head).map strictNumber := by
        rw [hvalues, List.map_map]
        refine List.map_congr_left fun t ht => ?_
        obtain ⟨n, hstrict, hlenient⟩ := hnumber t ht
        rw [hlenient, Function.comp_apply, hstrict]
      rw [← SameLength]
      exact sameLength_iff.mpr (.inl (congrArg agreed hsame))

/-- **A request has the length that its fields denote**, or is refused for it, exactly when it is
refused before or the scan reads that length. -/
theorem readHead_length_iff (he : HeadEndsAt raw e) :
    (¬ RefusedBefore lim raw e → ∀ t, readHead lim (raw ++ t) =
        answerOf lim (raw ++ t) e (strictLength (raw.take (e + 4)))) ↔
      RefusedBefore lim raw e ∨ SameLength lim (raw.take (e + 4)) := by
  by_cases hbefore : RefusedBefore lim raw e
  · simp [hbefore]
  have hread : ∀ t, readHead lim (raw ++ t) =
      answerOf lim (raw ++ t) e (lenientLength (raw.take (e + 4))) := by
    intro t
    have hbefore' : ¬ RefusedBefore lim (raw ++ t) e := fun h => hbefore (h.of_append he)
    rw [readHead_eq_answer (he.append t) hbefore', List.take_append_of_le_length he.le_length]
  simp only [hbefore, not_false_eq_true, true_implies, false_or, hread, sameLength_iff]
  constructor
  · exact answerOf_inj
  · rintro (h | ⟨n, m, hn, hm, hbig, hbig'⟩) t
    · rw [h]
    · rw [hn, hm, answerOf, answerOf, if_pos hbig, if_pos hbig']

/-- A plain length is read. -/
theorem readHead_length_plain :
    strictLength ((request ["Content-Length: 5"]).take 37) = some 5 ∧
      ∀ t, readHead defaultLimits (request ["Content-Length: 5"] ++ t) =
        answerOf defaultLimits (request ["Content-Length: 5"] ++ t) 33
          (strictLength ((request ["Content-Length: 5"]).take 37)) :=
  ⟨by decide, (readHead_length_iff (findHeadEnd_eq_some.mp (by decide))).mpr
    (.inr (sameLength_iff.mpr (.inl (by decide)))) (by decide)⟩

/-- `+5` is read as 5. -/
theorem readHead_length_plus :
    ¬ ∀ (lim : OrbitHttpLimits) (raw : Text) (e : Nat), HeadEndsAt raw e →
      ¬ RefusedBefore lim raw e → ∀ t, readHead lim (raw ++ t) =
        answerOf lim (raw ++ t) e (strictLength (raw.take (e + 4))) := by
  intro h
  have hread := h defaultLimits (request ["Content-Length: +5"]) 34
    (findHeadEnd_eq_some.mp (by decide)) (by decide) []
  revert hread
  decide

end

end Runtime.Http
