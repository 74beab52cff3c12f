import Mathlib.Data.List.TakeWhile
import Orbit.Runtime.Fetch

/-!
# Chunked replies

The decoder of chunks succeeds on a well-formed body alone, with the data of its chunks, exactly
when the reply is no complete body of the lenient kind, with a size line that has no digits or half
a line end, and no datum has a NUL (`decodes_iff`). It never reads outside of the reply
(`chunksFrom_inside`).
-/

namespace Runtime.Fetch

open Http (Text nul cString)
open Lib.Json (hexValue)

/-! ## Sizes -/

theorem Abi.long_step (abi : Abi) (n : Int) (v : Nat) :
    abi.long (abi.long n * 16 + v) = abi.long (n * 16 + v) := by
  rw [Abi.long, Abi.long, Abi.long, ← Int.bmod_add_bmod, Int.bmod_mul_bmod, Int.bmod_add_bmod]

/-- The number that `digits` make behind `n`. -/
def numberFrom (n : Nat) (digits : Text) : Nat :=
  digits.foldl (fun n c => 16 * n + (hexValue c).getD 0) n

theorem hexValue_lt {c : Char} {v : Nat} (h : hexValue c = some v) : v < 16 := by
  have hle : ∀ {a b : Char}, a ≤ b → a.toNat ≤ b.toNat := fun h => h
  unfold hexValue at h
  split at h
  · next hd =>
    rw [Lib.Decimal.isDigit, Bool.and_eq_true, decide_eq_true_eq, decide_eq_true_eq] at hd
    have hhi := hle hd.2
    cases h
    simp only [Char.reduceToNat] at hhi
    omega
  · split at h
    · next hd =>
      have hhi := hle hd.2
      cases h
      simp only [Char.reduceToNat] at hhi
      omega
    · split at h
      · next hd =>
        have hhi := hle hd.2
        cases h
        simp only [Char.reduceToNat] at hhi
        omega
      · cases h

theorem numberFrom_lt {digits : Text} (h : ∀ c ∈ digits, (hexValue c).isSome) {n k : Nat}
    (hn : n < 16 ^ k) : numberFrom n digits < 16 ^ (k + digits.length) := by
  induction digits generalizing n k with
  | nil => exact hn
  | cons c digits ih =>
    obtain ⟨v, hv⟩ := Option.isSome_iff_exists.mp (h c List.mem_cons_self)
    have hlt := hexValue_lt hv
    have hstep : 16 * n + v < 16 ^ (k + 1) := by
      rw [Nat.pow_succ]
      omega
    have hrest := ih (fun d hd => h d (List.mem_cons_of_mem _ hd)) hstep
    rw [numberFrom, List.foldl_cons, hv, Option.getD_some]
    rw [List.length_cons, show k + (digits.length + 1) = k + 1 + digits.length by omega]
    exact hrest

/-- What the loop over the digits makes of a line. -/
theorem sizeDigits_cases (abi : Abi) (q : Text) (k n : Nat) (hk : k ≤ 8) :
    (∃ digits ext, q = digits ++ ext ∧ (∀ c ∈ digits, (hexValue c).isSome) ∧
      (ext = [] ∨ ext.head? = some ';') ∧ k + digits.length ≤ 8 ∧
      sizeDigits abi k (abi.long n) q = .ok (abi.long (numberFrom n digits))) ∨
    sizeDigits abi k (abi.long n) q = .error .badChunk ∨
    sizeDigits abi k (abi.long n) q = .error .tooBig := by
  induction q generalizing k n with
  | nil => exact Or.inl ⟨[], [], rfl, by simp, Or.inl rfl, hk, rfl⟩
  | cons c q ih =>
    rw [sizeDigits]
    by_cases hc : c = ';'
    · subst hc
      exact Or.inl ⟨[], ';' :: q, rfl, by simp, Or.inr rfl, hk, by rw [if_pos rfl]; rfl⟩
    · rw [if_neg hc]
      cases hv : hexValue c with
      | none => exact Or.inr (Or.inl rfl)
      | some v =>
        by_cases hfull : k ≥ 8
        · exact Or.inr (Or.inr (if_pos hfull))
        · simp only [if_neg hfull]
          have hstep : abi.long (abi.long n * 16 + v) = abi.long ((16 * n + v : Nat) : Int) := by
            rw [Abi.long_step, Nat.cast_add, Nat.cast_mul, mul_comm (n : Int)]
            rfl
          rw [hstep]
          rcases ih (k + 1) (16 * n + v) (by omega) with
            ⟨digits, ext, rfl, hhex, hext, hlen, hok⟩ | hbad | hbig
          · refine Or.inl ⟨c :: digits, ext, rfl, ?_, hext, by rw [List.length_cons]; omega, ?_⟩
            · rintro d (_ | ⟨_, hd⟩)
              · rw [hv]; rfl
              · exact hhex d hd
            · rw [hok, numberFrom, numberFrom, List.foldl_cons, hv, Option.getD_some]
          · exact Or.inr (Or.inl hbad)
          · exact Or.inr (Or.inr hbig)

/-- A size line is read as its number. -/
theorem sizeDigits_ok (abi : Abi) {digits ext : Text} (hhex : ∀ c ∈ digits, (hexValue c).isSome)
    (hext : ext = [] ∨ ext.head? = some ';') {k : Nat} (n : Nat) (hlen : k + digits.length ≤ 8) :
    sizeDigits abi k (abi.long n) (digits ++ ext) = .ok (abi.long (numberFrom n digits)) := by
  induction digits generalizing k n with
  | nil =>
    rcases hext with rfl | hext
    · rfl
    · cases ext with
      | nil => cases hext
      | cons c ext =>
        cases hext
        rw [List.nil_append, sizeDigits, if_pos rfl]
        rfl
  | cons c digits ih =>
    obtain ⟨v, hv⟩ := Option.isSome_iff_exists.mp (hhex c List.mem_cons_self)
    have hc : c ≠ ';' := by
      rintro rfl
      rw [show hexValue ';' = none by decide] at hv
      cases hv
    rw [List.length_cons] at hlen
    have hstep : abi.long (abi.long n * 16 + v) = abi.long ((16 * n + v : Nat) : Int) := by
      rw [Abi.long_step, Nat.cast_add, Nat.cast_mul, mul_comm (n : Int)]
      rfl
    rw [List.cons_append, sizeDigits, if_neg hc, hv]
    simp only [if_neg (show ¬ k ≥ 8 by omega)]
    rw [hstep, ih (fun d hd => hhex d (List.mem_cons_of_mem _ hd)) _ (by omega), numberFrom,
      numberFrom, List.foldl_cons, hv, Option.getD_some]

theorem number_lt {digits : Text} (h : ∀ c ∈ digits, (hexValue c).isSome)
    (hlen : digits.length ≤ 8) : number digits < 2 ^ 32 := by
  have hlt := numberFrom_lt (n := 0) (k := 0) h (by decide)
  rw [Nat.zero_add] at hlt
  calc number digits < 16 ^ digits.length := hlt
    _ ≤ 16 ^ 8 := Nat.pow_le_pow_right (by decide) hlen
    _ = 2 ^ 32 := by decide

/-- A size that a `long` does not hold is negative, and no reply is as long as it is then. -/
theorem long_cases (abi : Abi) {n : Nat} (h : n < 2 ^ 32) :
    (abi.long n = n ∧ sizeT (abi.long n) = n ∧ n < 2 ^ (abi.longBits - 1)) ∨
    (abi.long n ≠ 0 ∧ 2 ^ 63 ≤ sizeT (abi.long n) ∧ ¬ n < 2 ^ (abi.longBits - 1) ∧ n ≠ 0) := by
  rcases abi.known with hbits | hbits
  · rw [Abi.long, hbits]
    by_cases hn : n < 2 ^ 31
    · left
      have hlong : (n : Int).bmod (2 ^ 32) = n := by
        rw [Int.bmod_def]
        omega
      rw [hlong, sizeT]
      omega
    · right
      have hlong : (n : Int).bmod (2 ^ 32) = n - 2 ^ 32 := by
        rw [Int.bmod_def]
        omega
      rw [hlong, sizeT]
      omega
  · left
    have hlong : (n : Int).bmod (2 ^ 64) = n := by
      rw [Int.bmod_def]
      omega
    rw [Abi.long, hbits, hlong, sizeT]
    omega

/-! ## Lines -/

theorem not_eol_of_hex {c : Char} (h : (hexValue c).isSome) : isEol c = false := by
  obtain ⟨v, hv⟩ := Option.isSome_iff_exists.mp h
  rw [isEol, Bool.or_eq_false_iff, decide_eq_false_iff_not, decide_eq_false_iff_not]
  refine ⟨?_, ?_⟩ <;>
  · rintro rfl
    revert hv
    simp only [show hexValue '\r' = none by decide, show hexValue '\n' = none by decide]
    exact fun hv => by cases hv

/-- A text that begins with a line end, or is empty. -/
def StartsEol (t : Text) : Prop := ∀ c, t.head? = some c → isEol c = true

theorem LineEnd.starts {l : Bool} {t rest : Text} (h : LineEnd l t rest) : StartsEol t := by
  rintro c hc
  cases h <;> cases hc <;> rfl

theorem drop_takeWhile (f : Char → Bool) (l : Text) :
    l.drop (l.takeWhile f).length = l.dropWhile f := by
  induction l with
  | nil => rfl
  | cons c l ih => cases hc : f c <;> simp [hc, ih]

section
variable {s : Text} {p : Nat}

theorem line_split (s : Text) (p : Nat) :
    s.drop p = (s.drop p).take (eolFrom s p - p) ++ s.drop (eolFrom s p) ∧
      (∀ c ∈ (s.drop p).take (eolFrom s p - p), isEol c = false) ∧
      StartsEol (s.drop (eolFrom s p)) := by
  have hlen : eolFrom s p - p = ((s.drop p).takeWhile fun c => !isEol c).length := by
    rw [eolFrom]
    omega
  have hdrop : s.drop (eolFrom s p) = (s.drop p).drop (eolFrom s p - p) := by
    rw [List.drop_drop, eolFrom]
    congr 1
    omega
  have htake : (s.drop p).take (eolFrom s p - p) = (s.drop p).takeWhile fun c => !isEol c := by
    rw [hlen]
    exact List.prefix_iff_eq_take.mp (List.takeWhile_prefix _) |>.symm
  refine ⟨by rw [hdrop, List.take_append_drop], ?_, ?_⟩
  · intro c hc
    rw [htake] at hc
    simpa using List.mem_takeWhile_imp hc
  · intro c hc
    rw [hdrop, hlen, drop_takeWhile] at hc
    have hne := List.head?_dropWhile_not (fun c => !isEol c) (s.drop p)
    rw [hc] at hne
    simpa using hne

theorem eolFrom_eq {line t : Text} (hs : s.drop p = line ++ t) (hline : ∀ c ∈ line, isEol c = false)
    (ht : StartsEol t) : eolFrom s p = p + line.length := by
  have hall : ∀ c ∈ line, (!isEol c) = true := fun c hc => by rw [hline c hc]; rfl
  rw [eolFrom, hs, List.takeWhile_append_of_pos hall]
  cases t with
  | nil => simp
  | cons c t => simp [ht c rfl]

theorem lineEnd_ok {next : Nat} (h : lineEnd s p = .ok next) :
    p < next ∧ next ≤ s.length ∧ ∃ l, LineEnd l (s.drop p) (s.drop next) := by
  rw [lineEnd] at h
  split at h
  · next hcrlf =>
    obtain ⟨hlt, hcr, hlf⟩ := hcrlf
    cases h
    refine ⟨by omega, by omega, false, ?_⟩
    have hdrop : s.drop p = '\r' :: '\n' :: s.drop (p + 2) := by
      rw [List.drop_eq_getElem_cons (by omega : p < s.length), List.drop_eq_getElem_cons hlt,
        (List.getElem?_eq_some_iff.mp hcr).2, (List.getElem?_eq_some_iff.mp hlf).2]
    rw [hdrop]
    exact .crlf _
  · next hnot =>
    split at h
    · next hone =>
      obtain ⟨hlt, hc⟩ := hone
      cases h
      refine ⟨by omega, by omega, true, ?_⟩
      rw [List.drop_eq_getElem_cons hlt]
      rcases hc with hcr | hlf
      · rw [(List.getElem?_eq_some_iff.mp hcr).2]
        refine .cr fun hhead => hnot ?_
        rw [List.head?_drop] at hhead
        exact ⟨(List.getElem?_eq_some_iff.mp hhead).1, hcr, hhead⟩
      · rw [(List.getElem?_eq_some_iff.mp hlf).2]
        exact .lf _
    · cases h

theorem lineEnd_eq {l : Bool} {rest : Text} (h : LineEnd l (s.drop p) rest) :
    ∃ next, lineEnd s p = .ok next ∧ p < next ∧ next ≤ s.length ∧ s.drop next = rest := by
  have hread : ∀ i, s[p + i]? = (s.drop p)[i]? := fun i => by rw [List.getElem?_drop]
  have hlen : (s.drop p).length = s.length - p := List.length_drop
  have hread0 := hread 0
  have hread1 := hread 1
  rw [Nat.add_zero] at hread0
  have hdrop : ∀ n, s.drop (p + n) = (s.drop p).drop n := fun n => by rw [List.drop_drop]
  rw [lineEnd]
  generalize s.drop p = t at h hread0 hread1 hlen hdrop
  cases h with
  | crlf rest =>
    simp only [List.length_cons] at hlen
    refine ⟨p + 2, if_pos ⟨by omega, hread0, hread1⟩, by omega, by omega, ?_⟩
    rw [hdrop]
    rfl
  | lf rest =>
    simp only [List.length_cons] at hlen
    refine ⟨p + 1, ?_, by omega, by omega, by rw [hdrop]; rfl⟩
    rw [if_neg, if_pos ⟨by omega, Or.inr hread0⟩]
    rw [hread0]
    exact fun hand => absurd hand.2.1 (by simp)
  | cr hne =>
    simp only [List.length_cons] at hlen
    refine ⟨p + 1, ?_, by omega, by omega, by rw [hdrop]; rfl⟩
    rw [if_neg, if_pos ⟨by omega, Or.inl hread0⟩]
    rw [hread1]
    intro hand
    rw [List.head?_eq_getElem?] at hne
    exact hne hand.2.2

end

/-! ## One turn -/

theorem abi_long_zero (abi : Abi) : abi.long ((0 : Nat) : Int) = 0 := by
  rw [Abi.long, Nat.cast_zero, Int.zero_bmod]

theorem SizeLine.no_sign {digits ext : Text} (h : SizeLine digits ext) :
    ¬ ((digits ++ ext).head? = some '+' ∨ (digits ++ ext).head? = some '-') := by
  cases digits with
  | nil =>
    rw [List.nil_append]
    rcases h.ext_ok with rfl | hext
    · simp
    · rw [hext]
      decide
  | cons c digits =>
    have hc := h.hex c List.mem_cons_self
    rw [List.cons_append, List.head?_cons, Option.some.injEq, Option.some.injEq]
    rintro (rfl | rfl) <;> exact absurd hc (by decide)

theorem chunkSize_ok (abi : Abi) {digits ext : Text} (h : SizeLine digits ext)
    (hlen : digits.length ≤ 8) : chunkSize abi (digits ++ ext) = .ok (abi.long (number digits)) := by
  have hok := sizeDigits_ok abi h.hex h.ext_ok (k := 0) 0 (by omega)
  rw [abi_long_zero] at hok
  rw [chunkSize, if_neg h.no_sign, hok]
  rfl

theorem chunkSize_cases (abi : Abi) {line : Text} (hplain : ∀ c ∈ line, isEol c = false) :
    (∃ digits ext, line = digits ++ ext ∧ SizeLine digits ext ∧ digits.length ≤ 8) ∨
    chunkSize abi line = .error .badChunk ∨ chunkSize abi line = .error .tooBig := by
  rw [chunkSize]
  split
  · exact Or.inr (Or.inl rfl)
  · rcases sizeDigits_cases abi line 0 0 (by decide) with
      ⟨digits, ext, rfl, hhex, hext, hlen, -⟩ | hbad | hbig
    · refine Or.inl ⟨digits, ext, rfl, ⟨hhex, hext, fun c hc => ?_⟩, by omega⟩
      exact hplain c (List.mem_append_right _ hc)
    · rw [abi_long_zero] at hbad
      exact Or.inr (Or.inl hbad)
    · rw [abi_long_zero] at hbig
      exact Or.inr (Or.inr hbig)

section
variable (abi : Abi) {s : Text} {p : Nat}

/-- A turn at a size line. -/
theorem chunksFrom_turn (hfits : s.length < 2 ^ 63) {digits ext t : Text}
    (hline : SizeLine digits ext) (hlen : digits.length ≤ 8) (hs : s.drop p = digits ++ ext ++ t)
    (ht : StartsEol t) (fuel : Nat) (out : Text) :
    chunksFrom abi s (fuel + 1) p out = (lineEnd s (p + (digits ++ ext).length)).bind fun q =>
      if number digits = 0 then .ok out
      else if number digits < 2 ^ (abi.longBits - 1) ∧ number digits ≤ s.length - q then
        (lineEnd s (q + number digits)).bind fun next =>
          chunksFrom abi s fuel next (out ++ (s.drop q).take (number digits))
      else .error .shortChunk := by
  have hplain : ∀ c ∈ digits ++ ext, isEol c = false := by
    intro c hc
    rcases List.mem_append.mp hc with hc | hc
    · exact not_eol_of_hex (hline.hex c hc)
    · exact hline.plain c hc
  have heol := eolFrom_eq hs hplain ht
  have htake : (s.drop p).take (p + (digits ++ ext).length - p) = digits ++ ext := by
    rw [Nat.add_sub_cancel_left, hs, List.take_left]
  rw [chunksFrom]
  simp only [heol, htake, chunkSize_ok abi hline hlen, bind, Except.bind]
  cases hend : lineEnd s (p + (digits ++ ext).length) with
  | error e => rfl
  | ok q =>
    obtain ⟨-, hq, -⟩ := lineEnd_ok hend
    have hleft : sizeT (s.length - q) = s.length - q := by
      rw [sizeT]
      omega
    simp only [hleft]
    rcases long_cases abi (number_lt hline.hex hlen) with
      ⟨hlong, hsize, hbound⟩ | ⟨hlong, hsize, hbound, hne⟩
    · rw [hsize, hlong]
      simp only [Nat.cast_eq_zero]
      by_cases hzero : number digits = 0
      · rw [if_pos hzero, if_pos hzero]
      · rw [if_neg hzero, if_neg hzero]
        by_cases hroom : number digits ≤ s.length - q
        · have hto : ((q : Int) + (number digits : Int)).toNat = q + number digits := by omega
          rw [if_neg (by omega), if_neg (by omega), if_pos ⟨hbound, hroom⟩, hto]
        · rw [if_pos (by omega), if_neg fun hand => hroom hand.2]
    · rw [if_neg hlong, if_pos (by omega), if_neg hne, if_neg fun hand => hbound hand.1]

/-- What a turn can meet. -/
theorem chunksFrom_cases (s : Text) (p fuel : Nat) (out : Text) :
    (∃ digits ext t, SizeLine digits ext ∧ digits.length ≤ 8 ∧ s.drop p = digits ++ ext ++ t ∧
      StartsEol t) ∨
    chunksFrom abi s (fuel + 1) p out = .error .badChunk ∨
    chunksFrom abi s (fuel + 1) p out = .error .tooBig := by
  obtain ⟨hsplit, hplain, hstarts⟩ := line_split s p
  rw [chunksFrom]
  rcases chunkSize_cases abi hplain with ⟨digits, ext, hline, hsize, hlen⟩ | hbad | hbig
  · exact Or.inl ⟨digits, ext, _, hsize, hlen, hline ▸ hsplit, hstarts⟩
  · rw [hbad]
    exact Or.inr (Or.inl rfl)
  · rw [hbig]
    exact Or.inr (Or.inr rfl)

/-! ## Runs -/

/-- The place behind some text. -/
theorem drop_behind {a t : Text} (hs : s.drop p = a ++ t) : s.drop (p + a.length) = t := by
  rw [← List.drop_drop, hs, List.drop_left]

theorem lineEnd_error {e : Fault} (h : lineEnd s p = .error e) : e = .badChunk := by
  rw [lineEnd] at h
  split at h
  · cases h
  · split at h
    · cases h
    · cases h
      rfl

/-- The decoder stays in the reply and comes to an end. -/
theorem chunksFrom_inside (hfits : s.length < 2 ^ 63) (fuel : Nat) (hp : p ≤ s.length)
    (hfuel : s.length < fuel + p) (out : Text) :
    chunksFrom abi s fuel p out ≠ .error .outside ∧
      chunksFrom abi s fuel p out ≠ .error .endless := by
  induction fuel generalizing p out with
  | zero => omega
  | succ fuel ih =>
    rcases chunksFrom_cases abi s p fuel out with
      ⟨digits, ext, t, hline, hlen, hs, ht⟩ | hbad | hbig
    · rw [chunksFrom_turn abi hfits hline hlen hs ht]
      cases hend : lineEnd s (p + (digits ++ ext).length) with
      | error e =>
        cases lineEnd_error hend
        exact ⟨nofun, nofun⟩
      | ok q =>
        obtain ⟨hpq, hq, -⟩ := lineEnd_ok hend
        simp only [Except.bind]
        split
        · exact ⟨nofun, nofun⟩
        · split
          · cases hend' : lineEnd s (q + number digits) with
            | error e =>
              cases lineEnd_error hend'
              exact ⟨nofun, nofun⟩
            | ok next =>
              obtain ⟨hqn, hn, -⟩ := lineEnd_ok hend'
              exact ih hn (by omega) _
          · exact ⟨nofun, nofun⟩
    · rw [hbad]
      exact ⟨nofun, nofun⟩
    · rw [hbig]
      exact ⟨nofun, nofun⟩

/-- What is decoded is a lenient body. -/
theorem lenient_of_chunksFrom (hfits : s.length < 2 ^ 63) (fuel : Nat) {out answer : Text}
    (h : chunksFrom abi s fuel p out = .ok answer) :
    ∃ l data, Lenient abi l (s.drop p) data ∧ answer = out ++ data := by
  induction fuel generalizing p out with
  | zero => cases h
  | succ fuel ih =>
    rcases chunksFrom_cases abi s p fuel out with
      ⟨digits, ext, t, hline, hlen, hs, ht⟩ | hbad | hbig
    · rw [chunksFrom_turn abi hfits hline hlen hs ht] at h
      cases hend : lineEnd s (p + (digits ++ ext).length) with
      | error e => rw [hend] at h; cases h
      | ok q =>
        obtain ⟨-, hq, l, hl⟩ := lineEnd_ok hend
        rw [drop_behind hs] at hl
        rw [hend] at h
        simp only [Except.bind] at h
        split at h
        · next hzero =>
          cases h
          refine ⟨digits.isEmpty || l, [], ?_, (List.append_nil _).symm⟩
          rw [hs]
          exact .last hline hlen hzero hl
        · next hne =>
          split at h
          · next hroom =>
            cases hend' : lineEnd s (q + number digits) with
            | error e => rw [hend'] at h; cases h
            | ok next =>
              obtain ⟨-, hn, l', hl'⟩ := lineEnd_ok hend'
              rw [hend'] at h
              obtain ⟨l'', data, hrest, rfl⟩ := ih h
              have hd : ((s.drop q).take (number digits)).length = number digits := by
                rw [List.length_take, List.length_drop]
                omega
              have hsplit : s.drop q =
                  (s.drop q).take (number digits) ++ s.drop (q + number digits) := by
                rw [← List.drop_drop, List.take_append_drop]
              have hpos : (s.drop q).take (number digits) ≠ [] := by
                rw [← List.length_pos_iff, hd]
                omega
              refine ⟨l || l' || l'', (s.drop q).take (number digits) ++ data, ?_, by
                rw [List.append_assoc]⟩
              rw [hs]
              rw [hsplit] at hl
              exact .chunk hline hlen hd.symm hpos (hd.symm ▸ hroom.1) hl hl' hrest
          · cases h
    · rw [hbad] at h
      cases h
    · rw [hbig] at h
      cases h

/-- A lenient body is decoded. -/
theorem chunksFrom_of_lenient (hfits : s.length < 2 ^ 63) {l : Bool} {u data : Text}
    (h : Lenient abi l u data) (hs : s.drop p = u) (fuel : Nat) (hp : p ≤ s.length)
    (hfuel : s.length < fuel + p) (out : Text) :
    chunksFrom abi s fuel p out = .ok (out ++ data) := by
  induction h generalizing p fuel out with
  | @last digits ext t rest l hline hlen hzero hl =>
    obtain ⟨fuel, rfl⟩ : ∃ n, fuel = n + 1 := ⟨fuel - 1, by omega⟩
    rw [chunksFrom_turn abi hfits hline hlen hs hl.starts]
    obtain ⟨q, hq, -, -, -⟩ := lineEnd_eq (p := p + (digits ++ ext).length)
      (drop_behind hs ▸ hl)
    rw [hq]
    simp only [Except.bind, if_pos hzero, List.append_nil]
  | @chunk digits ext t d u rest data l l' l'' hline hlen hnum hne hbound hl hl' _ ih =>
    obtain ⟨fuel, rfl⟩ : ∃ n, fuel = n + 1 := ⟨fuel - 1, by omega⟩
    rw [chunksFrom_turn abi hfits hline hlen hs hl.starts]
    obtain ⟨q, hq, hpq, hqlen, hqdrop⟩ := lineEnd_eq (p := p + (digits ++ ext).length)
      (drop_behind hs ▸ hl)
    obtain ⟨next, hnext, hqn, hnlen, hndrop⟩ := lineEnd_eq (p := q + d.length)
      (drop_behind hqdrop ▸ hl')
    have hpos : d.length ≠ 0 := fun h0 => hne (List.length_eq_zero_iff.mp h0)
    have hroom : d.length ≤ s.length - q := by omega
    rw [hq, hnum]
    simp only [Except.bind, if_neg hpos, if_pos (And.intro hbound hroom), hnext]
    rw [hqdrop, List.take_left, ih hndrop fuel hnlen (by omega), List.append_assoc]

end

/-! ## The decoder -/

theorem fetchChunked_iff (abi : Abi) (body : Body) (answer : Text) :
    fetchChunked abi body = .ok answer ↔
      ∃ l data, Lenient abi l body.bytes data ∧ answer = cString data := by
  rw [fetchChunked]
  constructor
  · intro h
    cases hrun : chunksFrom abi body.bytes (body.bytes.length + 1) 0 [] with
    | error e => rw [hrun] at h; cases h
    | ok out =>
      rw [hrun] at h
      cases h
      obtain ⟨l, data, hdata, rfl⟩ := lenient_of_chunksFrom abi body.fits _ hrun
      exact ⟨l, _, hdata, rfl⟩
  · rintro ⟨l, data, hdata, rfl⟩
    rw [chunksFrom_of_lenient abi body.fits hdata rfl _ (Nat.zero_le _) (by omega)]
    rfl

/-- A body without loose places is well formed. -/
theorem Lenient.chunked {abi : Abi} {l : Bool} {s data : Text} (h : Lenient abi l s data)
    (hl : l = false) : Chunked s data := by
  induction h with
  | last hline hlen hzero hend =>
    rw [Bool.or_eq_false_iff] at hl
    obtain ⟨hdigits, rfl⟩ := hl
    cases hend
    refine .last hline ?_ hzero
    rintro rfl
    cases hdigits
  | chunk hline hlen hnum hne _ hend hend' _ ih =>
    rw [Bool.or_eq_false_iff, Bool.or_eq_false_iff] at hl
    obtain ⟨⟨rfl, rfl⟩, hrest⟩ := hl
    cases hend'
    cases hend
    exact .chunk hline hnum hne (ih hrest)

theorem takeWhile_append_stop {f : Char → Bool} {a b : Text} (ha : ∀ c ∈ a, f c = true)
    (hb : ∀ c, b.head? = some c → f c = false) : (a ++ b).takeWhile f = a := by
  rw [List.takeWhile_append_of_pos ha]
  cases b with
  | nil => simp
  | cons c b => simp [hb c rfl]

/-- A text begins with one size line. -/
theorem SizeLine.unique {digits ext t digits' ext' t' : Text} (h : SizeLine digits ext)
    (h' : SizeLine digits' ext') (ht : StartsEol t) (ht' : StartsEol t')
    (heq : digits ++ ext ++ t = digits' ++ ext' ++ t') : digits = digits' ∧ t = t' := by
  have hplain : ∀ {digits ext : Text}, SizeLine digits ext → ∀ c ∈ digits ++ ext,
      (!isEol c) = true := by
    intro digits ext h c hc
    rcases List.mem_append.mp hc with hc | hc
    · rw [not_eol_of_hex (h.hex c hc)]; rfl
    · rw [h.plain c hc]; rfl
  have hstop : ∀ {t : Text}, StartsEol t → ∀ c, t.head? = some c → (!isEol c) = false :=
    fun ht c hc => by rw [ht c hc]; rfl
  have hline : digits ++ ext = digits' ++ ext' := by
    rw [← takeWhile_append_stop (hplain h) (hstop ht), heq,
      takeWhile_append_stop (hplain h') (hstop ht')]
  have hext : ∀ {ext : Text}, (ext = [] ∨ ext.head? = some ';') →
      ∀ c, ext.head? = some c → (hexValue c).isSome = false := by
    rintro ext (rfl | hext) c hc
    · cases hc
    · rw [hext] at hc
      cases hc
      decide
  refine ⟨?_, ?_⟩
  · rw [← takeWhile_append_stop (f := fun c => (hexValue c).isSome) h.hex (hext h.ext_ok), hline,
      takeWhile_append_stop (f := fun c => (hexValue c).isSome) h'.hex (hext h'.ext_ok)]
  · rw [hline] at heq
    exact List.append_cancel_left heq

/-- The first chunk of a body. -/
theorem Chunked.first {s data : Text} (h : Chunked s data) :
    ∃ digits ext rest, SizeLine digits ext ∧ digits ≠ [] ∧
      s = digits ++ ext ++ '\r' :: '\n' :: rest ∧
      ((number digits = 0 ∧ data = []) ∨
        ∃ d rest' data', number digits = d.length ∧ d ≠ [] ∧ rest = d ++ '\r' :: '\n' :: rest' ∧
          Chunked rest' data' ∧ data = d ++ data') := by
  cases h with
  | last hline hdigits hzero => exact ⟨_, _, _, hline, hdigits, rfl, Or.inl ⟨hzero, rfl⟩⟩
  | chunk hline hnum hne hrest =>
    refine ⟨_, _, _, hline, ?_, rfl, Or.inr ⟨_, _, _, hnum, hne, rfl, hrest, rfl⟩⟩
    rintro rfl
    exact hne (List.length_eq_zero_iff.mp hnum.symm)

theorem startsEol_crlf (t : Text) : StartsEol ('\r' :: t) := by
  rintro c hc
  cases hc
  rfl

theorem LineEnd.of_crlf {l : Bool} {t rest : Text} (h : LineEnd l ('\r' :: '\n' :: t) rest) :
    l = false ∧ rest = t := by
  cases h with
  | crlf => exact ⟨rfl, rfl⟩
  | cr hne => exact absurd rfl hne

/-- A well-formed body is read in one way. -/
theorem Lenient.of_chunked {abi : Abi} {l : Bool} {s data data' : Text} (h : Lenient abi l s data)
    (h' : Chunked s data') : l = false ∧ data = data' := by
  induction h generalizing data' with
  | last hline hlen hzero hend =>
    obtain ⟨digits', ext', rest', hline', hdigits, hs, hcase⟩ := h'.first
    obtain ⟨rfl, rfl⟩ := hline.unique hline' hend.starts (startsEol_crlf _) hs
    obtain ⟨rfl, -⟩ := hend.of_crlf
    rcases hcase with ⟨-, rfl⟩ | ⟨d, rest', data', hnum, hne, -⟩
    · refine ⟨?_, rfl⟩
      rw [Bool.or_false, List.isEmpty_eq_false_iff]
      exact hdigits
    · rw [hzero] at hnum
      exact absurd (List.length_eq_zero_iff.mp hnum.symm) hne
  | @chunk digits ext t d u rest data l l' l'' hline hlen hnum hne _ hend hend' _ ih =>
    obtain ⟨digits', ext', rest', hline', hdigits, hs, hcase⟩ := h'.first
    obtain ⟨rfl, rfl⟩ := hline.unique hline' hend.starts (startsEol_crlf _) hs
    obtain ⟨rfl, hrest⟩ := hend.of_crlf
    rcases hcase with ⟨hzero, -⟩ | ⟨d', rest'', data'', hnum', -, hbody, hchunked, rfl⟩
    · rw [hnum] at hzero
      exact absurd (List.length_eq_zero_iff.mp hzero) hne
    · rw [hbody] at hrest
      obtain ⟨rfl, rfl⟩ := List.append_inj hrest (hnum.symm.trans hnum')
      obtain ⟨rfl, rfl⟩ := hend'.of_crlf
      obtain ⟨rfl, rfl⟩ := ih hchunked
      exact ⟨rfl, rfl⟩

theorem nul_free_of_cString {s : Text} (h : cString s = s) : nul ∉ s := by
  intro hmem
  have hall := List.takeWhile_eq_self_iff.mp h nul hmem
  simp at hall

/-- A body that the decoder is right about has nothing loose. -/
theorem Decodes.strict {abi : Abi} {body : Body} (h : Decodes abi body) (data : Text) :
    ¬ Lenient abi true body.bytes data := by
  intro hdata
  have hchunked := h.sound _ ((fetchChunked_iff abi body _).mpr ⟨true, data, hdata, rfl⟩)
  cases (hdata.of_chunked hchunked).1

/-- **The decoder is right about a reply** exactly when it is no complete body with a size line
without digits or half a line end, and no complete body with a NUL in its data. -/
theorem decodes_iff (abi : Abi) (body : Body) :
    Decodes abi body ↔ (∀ data, ¬ Lenient abi true body.bytes data) ∧
      ∀ data, Lenient abi false body.bytes data → nul ∉ data := by
  constructor
  · intro h
    refine ⟨h.strict, fun data hdata => ?_⟩
    have hchunked := h.sound _ ((fetchChunked_iff abi body _).mpr ⟨false, data, hdata, rfl⟩)
    exact nul_free_of_cString (hdata.of_chunked hchunked).2.symm
  · rintro ⟨hstrict, hnul⟩
    refine ⟨fun answer hanswer => ?_, ?_⟩
    · obtain ⟨l, data, hdata, rfl⟩ := (fetchChunked_iff abi body answer).mp hanswer
      cases l with
      | true => exact absurd hdata (hstrict data)
      | false =>
        have hself : cString data = data := List.takeWhile_eq_self_iff.mpr fun c hc =>
          decide_eq_true fun heq => hnul data hdata (heq ▸ hc)
        rw [hself]
        exact hdata.chunked rfl
    · have hinside := chunksFrom_inside abi body.fits (body.bytes.length + 1) (p := 0)
        (Nat.zero_le _) (by omega) []
      rw [fetchChunked]
      cases hrun : chunksFrom abi body.bytes (body.bytes.length + 1) 0 [] with
      | ok out => exact ⟨nofun, nofun⟩
      | error e =>
        rw [hrun] at hinside
        exact hinside

/-- A reply of an empty line is taken for a complete body. -/
theorem decodes_empty_line : ¬ ∀ abi body, Decodes abi body := by
  intro h
  have hnot := (h ⟨64, Or.inr rfl⟩ ⟨['\r', '\n'], by decide⟩).strict []
  have hline : SizeLine [] [] := ⟨nofun, Or.inl rfl, nofun⟩
  exact hnot (.last hline (Nat.zero_le _) rfl (.crlf []))

end Runtime.Fetch
