import Mathlib.Data.List.DropRight
import Mathlib.Data.List.GetD
import Orbit.Lib.Decimal
import Orbit.Lib.Pieces
import Orbit.Stdlib.Strings

/-!
# What the functions on strings compute

Both ways of splitting give the pieces between the occurrences of the separator, `join` puts a text
between pieces, and the copy of a replacement is the pieces of the old text with the new one between
them. Its block has the size of the copy as long as the occurrences can be counted in an `int`
(`replace_coheres_iff`).

`parseIntChecked` accepts the decimal form of the integers of 64 bits, with blanks around it
(`parseIntChecked_iff`): a text that passes the check of its digits is converted, as far as the limits
allow, and has to be what the number is written as.
-/

namespace Stdlib.Strings

open Runtime.Json (Text)
open Lib.Decimal (isDigit digitsValue)
open Lib.Find (indexOf)
open Lib.Text (intToString)
open Lib.Pieces

/-! ## Searching and slicing -/

theorem rtMatchesAt_eq (rest sub : Text) : rtMatchesAt rest sub = sub.isPrefixOf rest := by
  induction sub generalizing rest with
  | nil => rw [rtMatchesAt, List.isPrefixOf_nil_left]
  | cons k sub ih =>
    cases rest with
    | nil => rfl
    | cons c rest =>
      rw [rtMatchesAt, ih, List.isPrefixOf_cons_cons]
      by_cases hc : c = k
      · rw [hc, decide_eq_true rfl, beq_self_eq_true]
      · rw [decide_eq_false hc, beq_eq_false_iff_ne.mpr fun h => hc h.symm]

theorem rtFindFrom_eq (first : Char) (sub : Text) (i : Nat) (rest : Text) :
    rtFindFrom (first :: sub) first i rest =
      match indexOf (first :: sub) rest with
      | none => -1
      | some p => (i : Int) + p := by
  induction rest generalizing i with
  | nil => rfl
  | cons c rest ih =>
    rw [rtFindFrom, rtMatchesAt_eq]
    by_cases hmatch : (first :: sub).isPrefixOf (c :: rest) = true
    · have hfirst : c = first := by
        rw [List.isPrefixOf_cons_cons, Bool.and_eq_true, beq_iff_eq] at hmatch
        exact hmatch.1.symm
      rw [hmatch, Lib.Find.indexOf_of_match (List.isPrefixOf_iff_prefix.mp hmatch), if_pos]
      · exact (Int.add_zero _).symm
      · rw [hfirst, decide_eq_true rfl]
        rfl
    · rw [if_neg (by rw [Bool.and_eq_true]; exact fun h => hmatch h.2), ih,
        Lib.Find.indexOf_cons_of_miss (mt List.isPrefixOf_iff_prefix.mpr hmatch)]
      cases indexOf (first :: sub) rest with
      | none => rfl
      | some p =>
        rw [Option.map_some]
        dsimp only
        rw [Int.natCast_add, Int.natCast_add, Int.natCast_one, Int.add_assoc, Int.add_comm 1]

theorem orbitStringIndexOf_eq {sub : Text} (hne : sub ≠ []) (s : Text) :
    orbitStringIndexOf s sub =
      match indexOf sub s with
      | none => -1
      | some p => (p : Int) := by
  obtain ⟨first, sub, rfl⟩ := List.exists_cons_of_ne_nil hne
  rw [orbitStringIndexOf, rtFind, rtFindFrom_eq]
  cases indexOf (first :: sub) s with
  | none => rfl
  | some p => exact Int.zero_add _

theorem orbitStringSlice_eq {s : Text} {start stop : Nat} (hle : start ≤ stop)
    (hstop : stop ≤ s.length) :
    orbitStringSlice s start stop = (s.drop start).take (stop - start) := by
  have hlow : ¬ (start : Int) < 0 := by omega
  have hhigh : ¬ (stop : Int) > s.length := by omega
  rw [orbitStringSlice, if_neg hlow, if_neg hhigh, Int.toNat_natCast]
  split_ifs with hempty
  · rw [show stop - start = 0 by omega, List.take_zero]
  · rw [show ((stop : Int) - start).toNat = stop - start by omega]

theorem le_of_indexOf {needle s : Text} (hne : needle ≠ []) {p : Nat}
    (h : indexOf needle s = some p) : p + needle.length ≤ s.length := by
  have hprefix := (Lib.Find.indexOf_some h).1.length_le
  have hpos := List.length_pos_iff.mpr hne
  rw [List.length_drop] at hprefix
  omega

/-! ## Parts, bytes and numbers -/

theorem slice_front (u r : Text) : orbitStringSlice (u ++ r) 0 u.length = u := by
  rw [show (0 : Int) = (0 : Nat) from rfl, orbitStringSlice_eq (Nat.zero_le _) (by simp),
    List.drop_zero, Nat.sub_zero, List.take_left]

theorem slice_behind (u : Text) (c : Char) (r : Text) :
    orbitStringSlice (u ++ c :: r) (u.length + 1) (u ++ c :: r).length = r := by
  have hlen : (u ++ c :: r).length = u.length + 1 + r.length := by
    rw [List.length_append, List.length_cons]
    omega
  rw [show (u.length : Int) + 1 = (u.length + 1 : Nat) from rfl,
    orbitStringSlice_eq (by omega) (Nat.le_refl _), hlen, Nat.add_sub_cancel_left,
    ← List.drop_drop, List.drop_left, List.drop_succ_cons, List.drop_zero, List.take_length]

theorem toNat_eq_iff (c d : Char) : (c.toNat : Int) = d.toNat ↔ c = d :=
  ⟨fun h => Char.ext (UInt32.toNat_inj.mp (Int.ofNat.inj h)), fun h => h ▸ rfl⟩

theorem orbitStringAt_append (u : Text) (c : Char) (r : Text) :
    orbitStringAt (u ++ c :: r) u.length = c.toNat := by
  have hlen : (u ++ c :: r).length = u.length + 1 + r.length := by
    rw [List.length_append, List.length_cons]
    omega
  rw [orbitStringAt, if_neg (by omega), Int.toNat_natCast,
    List.getD_append_right _ _ _ _ (Nat.le_refl _), Nat.sub_self]
  rfl

theorem isDigit_iff (c : Char) :
    isDigit c = true ↔ ¬ ((c.toNat : Int) < 48 ∨ (c.toNat : Int) > 57) := by
  rw [isDigit, Bool.and_eq_true, decide_eq_true_eq, decide_eq_true_eq, Char.le_def, Char.le_def]
  change 48 ≤ c.toNat ∧ c.toNat ≤ 57 ↔ _
  omega

/-- A number is only wrapped, however often. -/
theorem toInt64_step (n k : Int) : toInt64 (toInt64 n * 10 + k) = toInt64 (n * 10 + k) := by
  unfold toInt64
  rw [← Int.bmod_add_bmod, Int.bmod_mul_bmod, Int.bmod_add_bmod]

theorem toInt64_neg (n : Int) : toInt64 (0 - toInt64 n) = toInt64 (-n) := by
  unfold toInt64
  rw [Int.sub_bmod_bmod, Int.zero_sub]

theorem toInt64_of_range {n : Int} (h : -2 ^ 63 ≤ n ∧ n < 2 ^ 63) : toInt64 n = n :=
  Int.bmod_eq_of_le (by omega) (by omega)

theorem takeWhile_digits (n : Nat) {r : Text} (hr : ∀ c ∈ r.head?, isDigit c = false) :
    (Nat.toDigits 10 n ++ r).takeWhile isDigit = Nat.toDigits 10 n := by
  have hrest : r.takeWhile isDigit = [] := by
    cases r with
    | nil => rfl
    | cons c r =>
      refine List.takeWhile_cons_of_neg ?_
      rw [hr c rfl]
      exact Bool.false_ne_true
  rw [List.takeWhile_append_of_pos fun c hc => Lib.Decimal.isDigit_of_mem_digits hc, hrest,
    List.append_nil]

/-! ## Splitting -/

theorem splitFrom_eq {sep : Text} (hne : sep ≠ []) {fuel : Nat} (parts : List Text) {rest : Text}
    (h : rest.length ≤ fuel) : splitFrom sep fuel parts rest = parts ++ pieces sep rest := by
  induction fuel generalizing parts rest with
  | zero =>
    rw [List.length_eq_zero_iff.mp (Nat.le_zero.mp h), splitFrom, pieces_none]
    rw [indexOf, if_neg hne]
  | succ fuel ih =>
    rw [splitFrom, orbitStringIndexOf_eq hne]
    cases hfind : indexOf sep rest with
    | none => rw [if_pos rfl, pieces_none hfind]
    | some p =>
      have hle := le_of_indexOf hne hfind
      have hlt := length_drop_lt hne hfind
      have hfront := orbitStringSlice_eq (s := rest) (Nat.zero_le p) (by omega)
      have hback := orbitStringSlice_eq hle (Nat.le_refl rest.length)
      rw [List.drop_zero, Nat.sub_zero] at hfront
      rw [List.take_of_length_le (by rw [List.length_drop])] at hback
      dsimp only
      rw [if_neg (by omega), ← Int.natCast_add, ← Int.natCast_zero, hfront, hback, ih _ (by omega),
        pieces_some hne hfind, List.append_assoc]
      rfl

/-- The pieces of a string; without a separator it is one piece. -/
theorem split_eq (s : Text) {sep : Text} (hne : sep ≠ []) : split s sep = pieces sep s := by
  rw [split, if_neg hne, splitFrom_eq hne [] (Nat.le_refl _), List.nil_append]

theorem orbitStringSplitFrom_eq {delim : Text} (hne : delim ≠ []) {fuel : Nat} {p : Text}
    (h : p.length ≤ fuel) : orbitStringSplitFrom delim fuel p = pieces delim p := by
  induction fuel generalizing p with
  | zero =>
    rw [List.length_eq_zero_iff.mp (Nat.le_zero.mp h), orbitStringSplitFrom, pieces_none]
    rw [indexOf, if_neg hne]
  | succ fuel ih =>
    rw [orbitStringSplitFrom]
    cases hfind : indexOf delim p with
    | none => rw [pieces_none hfind]
    | some d =>
      have hlt := length_drop_lt hne hfind
      dsimp only
      rw [ih (by omega), pieces_some hne hfind]

/-- The two ways of splitting agree, also without a separator. -/
theorem orbitStringSplit_eq (s delim : Text) : orbitStringSplit s delim = split s delim := by
  by_cases hne : delim = []
  · rw [orbitStringSplit, split, if_pos hne, if_pos hne]
  · rw [split_eq s hne, orbitStringSplit, if_neg hne, orbitStringSplitFrom_eq hne (Nat.le_refl _)]

/-! ## Joining -/

theorem orbitCbufAppend_data (buf : OrbitCBuf) (s : Text) :
    (orbitCbufAppend buf s).data = buf.data ++ s := by
  rw [orbitCbufAppend]
  split_ifs with hempty
  · rw [List.length_eq_zero_iff.mp hempty, List.append_nil]
  · dsimp only
    split_ifs <;> rfl

theorem joinFrom_data (sep : Text) (i : Nat) (parts : List Text) (buf : OrbitCBuf) :
    (joinFrom sep (i + 1) parts buf).data = buf.data ++ parts.flatMap (sep ++ ·) := by
  induction parts generalizing i buf with
  | nil => rw [joinFrom, List.flatMap_nil, List.append_nil]
  | cons part parts ih =>
    rw [joinFrom, ih, if_pos (Nat.succ_ne_zero i), orbitCbufAppend_data, orbitCbufAppend_data,
      List.flatMap_cons, List.append_assoc, List.append_assoc, List.append_assoc]

theorem intercalate_eq_flatMap (sep part : Text) (parts : List Text) :
    sep.intercalate (part :: parts) = part ++ parts.flatMap (sep ++ ·) := by
  induction parts generalizing part with
  | nil => rw [List.intercalate_singleton, List.flatMap_nil, List.append_nil]
  | cons next parts ih =>
    rw [List.intercalate_cons_cons, ih, List.flatMap_cons, List.append_assoc, List.append_assoc]

theorem join_eq (parts : List Text) (sep : Text) : join parts sep = sep.intercalate parts := by
  cases parts with
  | nil => rfl
  | cons part parts =>
    rw [join, orbitCbufBuild, joinFrom, joinFrom_data, if_neg (not_not.mpr rfl),
      orbitCbufAppend_data, intercalate_eq_flatMap]
    rfl

/-! ## Replacing -/

theorem replaceLoop_eq {old : Text} (hne : old ≠ []) (new : Text) {fuel : Nat} {r : Text}
    (h : r.length ≤ fuel) : replaceLoop old new fuel r = new.intercalate (pieces old r) := by
  induction fuel generalizing r with
  | zero =>
    rw [List.length_eq_zero_iff.mp (Nat.le_zero.mp h), replaceLoop, pieces_none,
      List.intercalate_singleton]
    rw [indexOf, if_neg hne]
  | succ fuel ih =>
    rw [replaceLoop]
    cases hfind : indexOf old r with
    | none => rw [pieces_none hfind, List.intercalate_singleton]
    | some p =>
      have hlt := length_drop_lt hne hfind
      dsimp only
      rw [ih (by omega), pieces_some hne hfind, intercalate_cons _ _ (pieces_ne_nil _ _),
        List.append_assoc]

/-- The count, as long as an `int` holds it. -/
theorem countFrom_eq {old : Text} (hne : old ≠ []) {fuel count : Nat} (hcount : count ≤ 2147483647)
    {p : Text} (h : p.length ≤ fuel) :
    countFrom old fuel count p =
      if count + occurrences old p ≤ 2147483647 then some (count + occurrences old p) else none := by
  induction fuel generalizing count p with
  | zero =>
    rw [List.length_eq_zero_iff.mp (Nat.le_zero.mp h), countFrom, occurrences_none, Nat.add_zero,
      if_pos hcount]
    rw [indexOf, if_neg hne]
  | succ fuel ih =>
    rw [countFrom]
    cases hfind : indexOf old p with
    | none =>
      rw [occurrences_none hfind, Nat.add_zero]
      exact (if_pos hcount).symm
    | some d =>
      have hlt := length_drop_lt hne hfind
      dsimp only
      rw [occurrences_some hne hfind]
      split_ifs with hfull hfits hfits
      · omega
      · rfl
      · rw [ih (by omega) (by omega), if_pos (by omega)]
        congr 1
        omega
      · rw [ih (by omega) (by omega), if_neg (by omega)]

/-- The string that a replacement gives. -/
def Replaced.text (s : Text) : Replaced → Text
  | .same => s
  | .copied _ written => written

/-- The block is of the size of what is written to it. -/
def Replaced.Sized : Replaced → Prop
  | .same => True
  | .copied totalLen written => totalLen.toNat = written.length

/-- A replacement is the pieces joined again, in a block of their size. -/
def Coheres (s old new : Text) : Prop :=
  ∃ r, orbitStringReplace s old new = some r ∧ r.text s = join (split s old) new ∧ r.Sized

theorem totalLen_eq {s old new : Text} {n w : Nat}
    (h : w + n * old.length = s.length + n * new.length) :
    UInt64.ofNat s.length + UInt64.ofNat n * (UInt64.ofNat new.length - UInt64.ofNat old.length) =
      UInt64.ofNat w := by
  have := congrArg UInt64.ofNat h
  rw [UInt64.ofNat_add, UInt64.ofNat_mul, UInt64.ofNat_add, UInt64.ofNat_mul] at this
  grind

theorem replace_coheres_iff {s old new : Text} (hne : old ≠ []) :
    Coheres s old new ↔ occurrences old s ≤ 2147483647 ∧
      (occurrences old s = 0 ∨
        s.length + occurrences old s * new.length < 2 ^ 64 + occurrences old s * old.length) := by
  have hlen := length_replaced hne new s
  rw [Coheres, orbitStringReplace, if_neg hne, countFrom_eq hne (Nat.zero_le _) (Nat.le_refl _),
    Nat.zero_add, join_eq, split_eq s hne]
  by_cases hfits : occurrences old s ≤ 2147483647
  · rw [if_pos hfits, and_iff_right hfits]
    dsimp only
    by_cases hzero : occurrences old s = 0
    · rw [if_pos hzero, hzero]
      refine iff_of_true ⟨.same, rfl, ?_, trivial⟩ (.inl rfl)
      cases hfind : indexOf old s with
      | none => rw [pieces_none hfind, List.intercalate_singleton, Replaced.text]
      | some p =>
        rw [occurrences_some hne hfind] at hzero
        cases hzero
    · rw [if_neg hzero, replaceLoop_eq hne new (Nat.le_refl _), totalLen_eq hlen,
        or_iff_right hzero]
      have hsized : (UInt64.ofNat (new.intercalate (pieces old s)).length).toNat =
          (new.intercalate (pieces old s)).length ↔
            s.length + occurrences old s * new.length <
              2 ^ 64 + occurrences old s * old.length := by
        rw [UInt64.toNat_ofNat', Nat.mod_eq_iff_lt (by decide)]
        omega
      rw [← hsized]
      constructor
      · rintro ⟨r, hr, -, hfit⟩
        cases hr
        exact hfit
      · exact fun hfit => ⟨_, rfl, rfl, hfit⟩
  · rw [if_neg hfits]
    exact iff_of_false nofun fun h => hfits h.1

/-- **Joining what was split gives the string back, and a replacement is the same with another text
between the pieces, in a block of its size, if and only if** there are at most 2147483647 occurrences
and, where there are any, the result has less than 2^64 bytes. -/
theorem split_join_replace_iff (s : Text) :
    (∀ sep, sep ≠ [] → join (split s sep) sep = s ∧ join (orbitStringSplit s sep) sep = s) ∧
      ∀ old new, old ≠ [] → (Coheres s old new ↔ occurrences old s ≤ 2147483647 ∧
        (occurrences old s = 0 ∨
          s.length + occurrences old s * new.length <
            2 ^ 64 + occurrences old s * old.length)) := by
  refine ⟨fun sep hne => ?_, fun old new hne => replace_coheres_iff hne⟩
  rw [orbitStringSplit_eq, and_self, join_eq, split_eq s hne, intercalate_pieces hne]

/-- `aXbXc` with the X replaced. -/
theorem split_join_replace_few : Coheres ['a', 'X', 'b', 'X', 'c'] ['X'] ['-', '-'] :=
  ((split_join_replace_iff _).2 _ _ (by decide)).mpr (by
    rw [occurrences, ← split_eq _ (by decide)]
    decide)

theorem occurrences_replicate (c : Char) (n : Nat) :
    occurrences [c] (List.replicate n c) = n := by
  induction n with
  | zero => exact occurrences_none rfl
  | succ n ih =>
    have hfind : indexOf [c] (List.replicate (n + 1) c) = some 0 :=
      Lib.Find.indexOf_of_match ⟨List.replicate n c, rfl⟩
    rw [occurrences_some (List.cons_ne_nil _ _) hfind, List.replicate_succ, List.length_singleton,
      Nat.zero_add, List.drop_one, List.tail_cons, ih]

/-- A string of 2147483648 times `a` has more occurrences than an `int` counts. -/
theorem split_join_replace_many :
    ¬ ∀ s old new, old ≠ [] → Coheres s old new := by
  intro h
  have hfits := (replace_coheres_iff (List.cons_ne_nil _ _)).mp
    (h (List.replicate 2147483648 'a') ['a'] ['b', 'b'] (List.cons_ne_nil _ _))
  rw [occurrences_replicate] at hfits
  exact absurd hfits.1 (by decide)

/-! ## Trimming -/

def isBlank (c : Char) : Bool := isSpaceCode c.toNat

theorem isSpaceCode_eq (c : Char) : isSpaceCode c.toNat = isBlank c := rfl

theorem trimStart_eq (u r : Text) {fuel : Nat} (hfuel : r.length ≤ fuel) :
    trimStart (u ++ r) fuel u.length = (u.length + (r.takeWhile isBlank).length : Nat) := by
  induction r generalizing u fuel with
  | nil =>
    cases fuel with
    | zero => rfl
    | succ fuel => rw [trimStart, if_neg (by simp)]; rfl
  | cons c r ih =>
    obtain ⟨fuel, rfl⟩ : ∃ f, fuel = f + 1 := ⟨fuel - 1, by rw [List.length_cons] at hfuel; omega⟩
    rw [trimStart, if_pos (by simp), orbitStringAt_append]
    by_cases hc : isBlank c = true
    · have hlen : r.length ≤ fuel := by
        rw [List.length_cons] at hfuel
        omega
      have hnext := ih (u ++ [c]) hlen
      rw [List.append_assoc, List.singleton_append, List.length_append, List.length_singleton] at hnext
      rw [isSpaceCode_eq, if_neg (by rw [hc]; decide),
        List.takeWhile_cons_of_pos hc, List.length_cons,
        show (u.length : Int) + 1 = (u.length + 1 : Nat) from rfl, hnext, Nat.add_assoc,
        Nat.add_comm 1]
    · rw [isSpaceCode_eq, if_pos (Bool.eq_false_iff.mpr hc), List.takeWhile_cons_of_neg hc]
      rfl

theorem trimEnd_eq (u v w : Text) {fuel : Nat} (hfuel : v.length ≤ fuel) :
    trimEnd (u ++ (v ++ w)) u.length fuel (u.length + v.length : Nat) =
      (u.length + (v.rdropWhile isBlank).length : Nat) := by
  induction v using List.reverseRecOn generalizing w fuel with
  | nil =>
    cases fuel with
    | zero => rfl
    | succ fuel => rw [trimEnd, if_neg (by simp)]; rfl
  | append_singleton v c ih =>
    rw [List.length_append, List.length_singleton] at hfuel ⊢
    obtain ⟨fuel, rfl⟩ : ∃ f, fuel = f + 1 := ⟨fuel - 1, by omega⟩
    have hat : orbitStringAt (u ++ (v ++ [c] ++ w)) ((u.length + (v.length + 1) : Nat) - 1) =
        c.toNat := by
      have := orbitStringAt_append (u ++ v) c w
      rw [List.length_append] at this
      rw [show ((u.length + (v.length + 1) : Nat) : Int) - 1 = (u.length + v.length : Nat) by omega,
        ← this]
      simp only [List.append_assoc, List.singleton_append]
    rw [trimEnd, if_pos (by omega), hat]
    by_cases hc : isBlank c = true
    · have hnext := ih (c :: w) (show v.length ≤ fuel by omega)
      rw [isSpaceCode_eq, if_neg (by rw [hc]; decide),
        List.rdropWhile_concat_pos _ _ _ hc, ← hnext,
        show ((u.length + (v.length + 1) : Nat) : Int) - 1 = (u.length + v.length : Nat) by omega]
      simp only [List.append_assoc, List.singleton_append]
    · rw [isSpaceCode_eq, if_pos (Bool.eq_false_iff.mpr hc), List.rdropWhile_concat_neg _ _ _ hc,
        List.length_append, List.length_singleton]

theorem trim_eq (s : Text) : trim s = (s.dropWhile isBlank).rdropWhile isBlank := by
  obtain ⟨u, hu⟩ : ∃ u, s.takeWhile isBlank = u := ⟨_, rfl⟩
  obtain ⟨v, hv⟩ : ∃ v, s.dropWhile isBlank = v := ⟨_, rfl⟩
  have hs : s = u ++ (v ++ []) := by
    rw [← hu, ← hv, List.append_nil, List.takeWhile_append_dropWhile]
  have hlen : s.length = u.length + v.length := by
    rw [hs, List.length_append, List.length_append]
    rfl
  have hstart : trimStart s s.length 0 = u.length := by
    have := trimStart_eq [] s (Nat.le_refl _)
    rw [hu, List.nil_append, List.length_nil, Nat.zero_add] at this
    exact this
  have hstop : trimEnd s u.length s.length s.length =
      (u.length + (v.rdropWhile isBlank).length : Nat) := by
    have := trimEnd_eq u v [] (show v.length ≤ s.length by omega)
    rwa [← hs, ← hlen] at this
  have hprefix := List.rdropWhile_prefix isBlank v
  have hle := hprefix.length_le
  rw [trim, hstart, hstop, orbitStringSlice_eq (by omega) (by omega), Nat.add_sub_cancel_left, hv, hs,
    List.drop_left, List.append_nil]
  exact (List.prefix_iff_eq_take.mp hprefix).symm

/-- The text between the blanks at both ends. -/
theorem trim_between {pre m post : Text} (hpre : ∀ c ∈ pre, isBlank c = true)
    (hpost : ∀ c ∈ post, isBlank c = true) (hm : ∀ c ∈ m, ¬ isBlank c = true) (hne : m ≠ []) :
    trim (pre ++ (m ++ post)) = m := by
  obtain ⟨c, w, rfl⟩ := List.exists_cons_of_ne_nil hne
  have hlast : (c :: w).rdropWhile isBlank = c :: w :=
    List.rdropWhile_eq_self_iff.mpr fun hl => hm _ (List.getLast_mem hl)
  rw [trim_eq, List.dropWhile_append_of_pos hpre, List.cons_append,
    List.dropWhile_cons_of_neg (hm c List.mem_cons_self), ← List.cons_append, List.rdropWhile,
    List.reverse_append, List.dropWhile_append_of_pos fun d hd => hpost d (List.mem_reverse.mp hd)]
  exact hlast

/-- What is trimmed. -/
theorem trim_spec (s : Text) : ∃ pre post, (∀ c ∈ pre, isBlank c = true) ∧
    (∀ c ∈ post, isBlank c = true) ∧ s = pre ++ (trim s ++ post) := by
  refine ⟨s.takeWhile isBlank, (s.dropWhile isBlank).rtakeWhile isBlank,
    fun c hc => List.mem_takeWhile_imp hc, fun c hc => List.mem_rtakeWhile_imp hc, ?_⟩
  rw [trim_eq, List.rdropWhile_append_rtakeWhile, List.takeWhile_append_dropWhile]

theorem trim_eq_nil (s : Text) : trim s = [] ↔ ∀ c ∈ s, isBlank c = true := by
  rw [trim_eq, List.rdropWhile_eq_nil_iff]
  refine ⟨fun h c hc => ?_, fun h c hc => h c ((List.dropWhile_suffix _).subset hc)⟩
  rw [← List.takeWhile_append_dropWhile (p := isBlank) (l := s)] at hc
  rcases List.mem_append.mp hc with hc | hc
  · exact List.mem_takeWhile_imp hc
  · exact h c hc

/-! ## Digits -/

theorem digitsOnly_iff (d : Text) : digitsOnly d = true ↔ ∀ c ∈ d, isDigit c = true := by
  induction d with
  | nil => exact iff_of_true rfl fun c hc => absurd hc List.not_mem_nil
  | cons c d ih =>
    rw [digitsOnly, List.forall_mem_cons, isDigit_iff, ← ih]
    split_ifs with h
    · exact iff_of_false id fun hd => hd.1 h
    · exact (and_iff_right h).symm

theorem strtoll_range (s : Text) : -2 ^ 63 ≤ strtoll s ∧ strtoll s < 2 ^ 63 := by
  have hpos (d : Text) : 0 ≤ digitsValue (d.takeWhile isDigit) :=
    (Lib.Decimal.digitsValue_bounds fun c hc => List.mem_takeWhile_imp hc).1
  rw [strtoll]
  split
  · rename_i ds _
    have := hpos ds
    omega
  · rename_i ds _
    have := hpos ds
    omega
  · have := hpos (s.dropWhile isSpace)
    omega

theorem not_blank_of_digit {c : Char} (h : isDigit c = true) : ¬ isBlank c = true := by
  have hrange := (isDigit_iff c).mp h
  rw [isBlank, isSpaceCode]
  split_ifs <;> first | omega | exact id

theorem not_space_of_digit {c : Char} (h : isDigit c = true) : ¬ isSpace c = true := by
  have hrange := Lib.Decimal.isDigit_range h
  intro hs
  rw [isSpace, Bool.or_eq_true, Bool.and_eq_true, decide_eq_true_eq, decide_eq_true_eq,
    decide_eq_true_eq, Char.le_def, Char.le_def] at hs
  rcases hs with rfl | hs
  · exact absurd hrange.1 (by decide)
  · have hle : c.toNat ≤ 13 := hs.2
    omega

/-- A number in decimal is digits, or digits with a minus sign. -/
theorem intToString_cases (n : Int) :
    (0 ≤ n ∧ intToString n = Nat.toDigits 10 n.natAbs) ∨
      (n < 0 ∧ intToString n = '-' :: Nat.toDigits 10 n.natAbs) := by
  rw [intToString]
  split_ifs with h
  · exact .inr ⟨h, rfl⟩
  · exact .inl ⟨Int.not_lt.mp h, rfl⟩

theorem digits_cons (n : Nat) : ∃ d ds, Nat.toDigits 10 n = d :: ds ∧ isDigit d = true ∧
    ∀ c ∈ d :: ds, isDigit c = true := by
  obtain ⟨d, ds, hds⟩ := List.exists_cons_of_ne_nil (Nat.toDigits_ne_nil (b := 10) (n := n))
  have hall : ∀ c ∈ d :: ds, isDigit c = true := fun c hc =>
    Lib.Decimal.isDigit_of_mem_digits (hds ▸ hc)
  exact ⟨d, ds, hds, hall d List.mem_cons_self, hall⟩

theorem strtoll_written {n : Int} (h : -2 ^ 63 ≤ n ∧ n < 2 ^ 63) : strtoll (intToString n) = n := by
  have htake := takeWhile_digits n.natAbs (r := []) fun c hc => nomatch hc
  have hvalue := Lib.Decimal.digitsValue_digits n.natAbs
  rw [List.append_nil] at htake
  rcases intToString_cases n with ⟨hn, hs⟩ | ⟨hn, hs⟩
  · obtain ⟨d, ds, hds, hd, -⟩ := digits_cons n.natAbs
    have hdrop : (intToString n).dropWhile isSpace = Nat.toDigits 10 n.natAbs := by
      rw [hs, hds, List.dropWhile_cons_of_neg (not_space_of_digit hd)]
    rw [strtoll, hdrop]
    split
    · rename_i heq
      obtain rfl := (List.cons.inj (hds.symm.trans heq)).1
      exact absurd hd (by decide)
    · rename_i heq
      obtain rfl := (List.cons.inj (hds.symm.trans heq)).1
      exact absurd hd (by decide)
    · rw [htake, hvalue]
      omega
  · rw [strtoll, hs, List.dropWhile_cons_of_neg (by decide)]
    change max _ (-digitsValue ((Nat.toDigits 10 n.natAbs).takeWhile isDigit)) = n
    rw [htake, hvalue]
    omega

/-! ## Integers -/

/-- The decimal form of a number of 64 bits, with blanks around it. -/
def Spells (s : Text) (n : Int) : Prop := (-2 ^ 63 ≤ n ∧ n < 2 ^ 63) ∧
  ∃ pre post, (∀ c ∈ pre, isBlank c = true) ∧ (∀ c ∈ post, isBlank c = true) ∧
    s = pre ++ (intToString n ++ post)

theorem trim_intToString {pre post : Text} {n : Int} (hpre : ∀ c ∈ pre, isBlank c = true)
    (hpost : ∀ c ∈ post, isBlank c = true) :
    trim (pre ++ (intToString n ++ post)) = intToString n := by
  obtain ⟨d, ds, hds, -, hall⟩ := digits_cons n.natAbs
  refine trim_between hpre hpost (fun c hc => ?_) ?_
  · rcases intToString_cases n with ⟨-, hs⟩ | ⟨-, hs⟩
    · exact not_blank_of_digit (hall c (by rwa [hs, hds] at hc))
    · rw [hs, hds] at hc
      rcases List.mem_cons.mp hc with rfl | hc
      · decide
      · exact not_blank_of_digit (hall c hc)
  · rcases intToString_cases n with ⟨-, hs⟩ | ⟨-, hs⟩
    · rw [hs, hds]
      exact List.cons_ne_nil _ _
    · rw [hs]
      exact List.cons_ne_nil _ _

theorem orbitStringAt_zero (c : Char) (t : Text) : orbitStringAt (c :: t) 0 = c.toNat :=
  orbitStringAt_append [] c t

/-- What is written as a number is accepted. -/
theorem parse_intToString {s : Text} {n : Int} (hn : -2 ^ 63 ≤ n ∧ n < 2 ^ 63)
    (ht : trim s = intToString n) : parseIntChecked s = .ok n := by
  obtain ⟨d, ds, hds, hd, hall⟩ := digits_cons n.natAbs
  have honly : digitsOnly (d :: ds) = true := (digitsOnly_iff _).mpr hall
  have hwritten := strtoll_written hn
  have hminus : (d.toNat : Int) ≠ 45 := fun h => by
    have := (isDigit_iff d).mp hd
    omega
  rw [parseIntChecked, ht]
  rcases intToString_cases n with ⟨-, hs⟩ | ⟨-, hs⟩
  · rw [hs, hds] at hwritten ⊢
    dsimp only
    rw [if_neg (List.cons_ne_nil d ds), orbitStringAt_zero, if_neg hminus, if_neg (by simp),
      List.drop_zero, honly, if_neg (by decide), orbitStringToInt, if_neg (List.cons_ne_nil d ds),
      hwritten, orbitIntToString, hs, hds, if_neg (not_not.mpr rfl)]
  · rw [hs, hds] at hwritten ⊢
    dsimp only
    rw [if_neg (List.cons_ne_nil _ _), orbitStringAt_zero,
      if_pos (show (('-').toNat : Int) = 45 from rfl), if_neg (by simp), List.drop_succ_cons,
      List.drop_zero, honly, if_neg (by decide), orbitStringToInt,
      if_neg (List.cons_ne_nil _ _), hwritten, orbitIntToString, hs, hds, if_neg (not_not.mpr rfl)]

/-- The three results. -/
theorem parseIntChecked_cases (s : Text) :
    (trim s = [] ∧ parseIntChecked s = .err "empty input" 1) ∨
      (trim s ≠ [] ∧ parseIntChecked s = .err "not an integer" 2) ∨
      ∃ n, (-2 ^ 63 ≤ n ∧ n < 2 ^ 63) ∧ trim s = intToString n ∧ parseIntChecked s = .ok n := by
  rw [parseIntChecked]
  dsimp only
  by_cases hnil : trim s = []
  · exact .inl ⟨hnil, if_pos hnil⟩
  rw [if_neg hnil]
  generalize (if orbitStringAt (trim s) 0 = 45 then 1 else 0 : Nat) = i
  by_cases hlen : i ≥ (trim s).length
  · exact .inr (.inl ⟨hnil, if_pos hlen⟩)
  rw [if_neg hlen]
  by_cases hdigits : digitsOnly ((trim s).drop i) = false
  · exact .inr (.inl ⟨hnil, if_pos hdigits⟩)
  rw [if_neg hdigits]
  by_cases hback : orbitIntToString (orbitStringToInt (trim s)) ≠ trim s
  · exact .inr (.inl ⟨hnil, if_pos hback⟩)
  · have hrange : orbitStringToInt (trim s) = strtoll (trim s) := if_neg hnil
    exact .inr (.inr ⟨_, hrange ▸ strtoll_range (trim s), (not_not.mp hback).symm, if_neg hback⟩)

/-- **What is accepted** is the decimal form of the number, and it is in range; anything else is an
error, with its own message if there is nothing but blanks. -/
theorem parseIntChecked_iff (s : Text) :
    (∀ n, parseIntChecked s = .ok n ↔ Spells s n) ∧
      (parseIntChecked s = .err "empty input" 1 ↔ ∀ c ∈ s, isBlank c = true) ∧
      (parseIntChecked s = .err "not an integer" 2 ↔
        (¬ ∀ c ∈ s, isBlank c = true) ∧ ∀ n, ¬ Spells s n) := by
  have haccept {n : Int} (h : Spells s n) : parseIntChecked s = .ok n := by
    obtain ⟨hn, pre, post, hpre, hpost, rfl⟩ := h
    exact parse_intToString hn (trim_intToString hpre hpost)
  have hspells {n : Int} (hn : -2 ^ 63 ≤ n ∧ n < 2 ^ 63) (ht : trim s = intToString n) :
      Spells s n := by
    obtain ⟨pre, post, hpre, hpost, hs⟩ := trim_spec s
    exact ⟨hn, pre, post, hpre, hpost, ht ▸ hs⟩
  rw [← trim_eq_nil]
  rcases parseIntChecked_cases s with ⟨hnil, h⟩ | ⟨hnil, h⟩ | ⟨n, hn, ht, h⟩
  · rw [h]
    refine ⟨fun n => ⟨fun hok => (nomatch hok), fun hs => ?_⟩, iff_of_true rfl hnil, ?_⟩
    · exact nomatch h.symm.trans (haccept hs)
    · exact ⟨fun he => absurd (OrbitResult.err.inj he).2 (by decide), fun hno => absurd hnil hno.1⟩
  · rw [h]
    refine ⟨fun n => ⟨fun hok => (nomatch hok), fun hs => ?_⟩, ?_, iff_of_true rfl ⟨hnil, ?_⟩⟩
    · exact nomatch h.symm.trans (haccept hs)
    · exact ⟨fun he => absurd (OrbitResult.err.inj he).2 (by decide), fun hyes => absurd hyes hnil⟩
    · exact fun n hs => nomatch h.symm.trans (haccept hs)
  · have hmine := hspells hn ht
    rw [h]
    refine ⟨fun m => ⟨fun hok => ?_, fun hs => h.symm.trans (haccept hs)⟩, ?_, ?_⟩
    · rwa [← OrbitResult.ok.inj hok]
    · refine ⟨fun he => (nomatch he), fun hnil => ?_⟩
      rcases intToString_cases n with ⟨-, hs⟩ | ⟨-, hs⟩
      · exact absurd (hs.symm.trans (ht.symm.trans hnil)) Nat.toDigits_ne_nil
      · exact absurd (hs.symm.trans (ht.symm.trans hnil)) (List.cons_ne_nil _ _)
    · exact ⟨fun he => (nomatch he), fun hno => absurd hmine (hno.2 n)⟩

end Stdlib.Strings
