import Mathlib.Data.List.TakeWhile
import Orbit.Lib.Json

/-!
# No JSON text is shorter than the written one

A text whose backslashes all start an escape of the writer (`Spelled`), up to a last one that starts
no escape at all, is at least as long as what the writer writes for its value (`write_le_of_read`).
So a text that was cut short does not read back as the value that was meant.
-/

namespace Lib.Json

open Lib.Decimal
open Lib.Text (intToString)

/-- A character that stands for itself in a string. -/
def Plain (c : Char) : Prop := 32 ≤ c.toNat ∧ c ≠ '"' ∧ c ≠ '\\'

instance (c : Char) : Decidable (Plain c) := inferInstanceAs (Decidable (_ ∧ _))

/-- Escapes character by character: only what has to be escaped is, and the reader understands
it. -/
structure CharEscapes (e : Char → Text) : Prop where
  plain : ∀ c, Plain c → e c = [c]
  opens : ∀ c, ¬ Plain c → ∃ t, e c = '\\' :: t
  reads : ∀ c t, ¬ Plain c → readBody (e c ++ t) = (readBody t).map fun r => (c :: r.1, r.2)

/-- Every backslash starts an escape; a last one may start something that no reader takes. -/
inductive Spelled (e : Char → Text) : Text → Prop where
  | nil : Spelled e []
  | char {c : Char} {t : Text} (h : c ≠ '\\') : Spelled e t → Spelled e (c :: t)
  | escape {c : Char} {t : Text} (h : ¬ Plain c) : Spelled e t → Spelled e (e c ++ t)
  | broken {t : Text} (h : readBody ('\\' :: t) = none) : Spelled e ('\\' :: t)

section
variable {e : Char → Text} (he : CharEscapes e)

theorem readBody_plain {c : Char} (h : Plain c) (t : Text) :
    readBody (c :: t) = (readBody t).map fun r => (c :: r.1, r.2) := by
  obtain ⟨h32, hq, hb⟩ := h
  rw [readBody.eq_4]
  · rw [if_neg (not_or.mpr ⟨by omega, hb⟩)]
  all_goals grind

theorem readBody_low {c : Char} (h : c.toNat < 32) (t : Text) : readBody (c :: t) = none := by
  rw [readBody.eq_4]
  · rw [if_pos (.inl h)]
  all_goals
    intros
    subst_vars
    exact absurd h (by decide)

include he in
/-- Such escapes are understood in every string. -/
theorem CharEscapes.escapes : Escapes fun s => s.flatMap e := by
  intro s rest
  dsimp only
  induction s with
  | nil => rfl
  | cons c s ih =>
    by_cases h : Plain c
    · rw [List.flatMap_cons, he.plain c h, List.singleton_append, List.cons_append,
        readBody_plain h, ih]
      rfl
    · rw [List.flatMap_cons, List.append_assoc, he.reads c _ h, ih]
      rfl

/-! ## Reading a part -/

include he in
theorem Spelled.tail {c : Char} {t : Text} (h : Spelled e (c :: t)) (hc : c ≠ '\\') :
    Spelled e t := by
  generalize hs : c :: t = s at h
  cases h with
  | nil => cases hs
  | char _ ht =>
    obtain ⟨-, rfl⟩ := List.cons.inj hs
    exact ht
  | @escape d u hd _ =>
    obtain ⟨w, hw⟩ := he.opens d hd
    rw [hw, List.cons_append] at hs
    exact absurd (List.cons.inj hs).1 hc
  | broken => exact absurd (List.cons.inj hs).1 hc

include he in
theorem Spelled.drop {pre t : Text} (h : Spelled e (pre ++ t)) (hpre : '\\' ∉ pre) :
    Spelled e t := by
  induction pre with
  | nil => exact h
  | cons c pre ih =>
    simp only [List.mem_cons, not_or] at hpre
    exact ih (h.tail he (Ne.symm hpre.1)) hpre.2

theorem skipSpace_eq (t : Text) : skipSpace t = t.dropWhile isSpace := by
  induction t with
  | nil => rfl
  | cons c t ih =>
    rw [skipSpace, List.dropWhile_cons]
    split <;> simp_all

theorem skipSpace_length (t : Text) : (skipSpace t).length ≤ t.length := by
  rw [skipSpace_eq]
  exact (List.dropWhile_suffix _).length_le

include he in
/-- What is left of a text after some of its characters. -/
theorem Spelled.dropWhile {p : Char → Bool} {t : Text} (h : Spelled e t) (hp : p '\\' = false) :
    Spelled e (t.dropWhile p) := by
  have hsplit : t.takeWhile p ++ t.dropWhile p = t := List.takeWhile_append_dropWhile
  rw [← hsplit] at h
  refine h.drop he fun hm => ?_
  rw [List.mem_takeWhile_imp hm] at hp
  cases hp

include he in
theorem Spelled.skipSpace {t : Text} (h : Spelled e t) : Spelled e (skipSpace t) := by
  rw [skipSpace_eq]
  exact h.dropWhile he rfl

include he in
theorem readBody_spelled {t s r : Text} (h : Spelled e t) (hr : readBody t = some (s, r)) :
    Spelled e r ∧ (s.flatMap e).length + 1 + r.length ≤ t.length := by
  induction h generalizing s with
  | nil => cases hr
  | @char c t hc ht ih =>
    by_cases hq : c = '"'
    · subst hq
      rw [readBody, Option.some.injEq, Prod.mk.injEq] at hr
      obtain ⟨rfl, rfl⟩ := hr
      exact ⟨ht, by simp [Nat.add_comm]⟩
    · by_cases hlow : c.toNat < 32
      · rw [readBody_low hlow] at hr
        cases hr
      · have hp : Plain c := ⟨by omega, hq, hc⟩
        rw [readBody_plain hp, Option.map_eq_some_iff] at hr
        obtain ⟨⟨s', r'⟩, hbody, heq⟩ := hr
        simp only [Prod.mk.injEq] at heq
        obtain ⟨rfl, rfl⟩ := heq
        obtain ⟨hrest, hlen⟩ := ih hbody
        refine ⟨hrest, ?_⟩
        rw [List.flatMap_cons, he.plain c hp, List.length_append, List.length_singleton,
          List.length_cons]
        omega
  | @escape c t hc ht ih =>
    rw [he.reads c t hc, Option.map_eq_some_iff] at hr
    obtain ⟨⟨s', r'⟩, hbody, heq⟩ := hr
    simp only [Prod.mk.injEq] at heq
    obtain ⟨rfl, rfl⟩ := heq
    obtain ⟨hrest, hlen⟩ := ih hbody
    refine ⟨hrest, ?_⟩
    rw [List.flatMap_cons, List.length_append, List.length_append]
    omega
  | broken hnone =>
    rw [hnone] at hr
    cases hr

include he in
theorem readNat_spelled {t r : Text} {n : Int} (h : Spelled e t) (hr : readNat t = some (n, r)) :
    Spelled e r ∧ 0 ≤ n ∧ (Nat.toDigits 10 n.natAbs).length + r.length ≤ t.length := by
  rw [readNat] at hr
  split at hr
  · cases hr
  · rename_i hok
    rw [Option.some.injEq, Prod.mk.injEq] at hr
    obtain ⟨rfl, rfl⟩ := hr
    simp only [not_or, Bool.not_eq_false, List.all_eq_true] at hok
    obtain ⟨hne, hdig, -⟩ := hok
    obtain ⟨h0, hlt⟩ := digitsValue_bounds hdig
    refine ⟨h.dropWhile he rfl, h0, ?_⟩
    have hpos : 0 < (t.takeWhile inNumber).length := List.length_pos_of_ne_nil hne
    have hlen : (Nat.toDigits 10 (digitsValue (t.takeWhile inNumber)).natAbs).length ≤
        (t.takeWhile inNumber).length := by
      rw [Nat.length_toDigits_le_iff (by decide) hpos]
      have : ((digitsValue (t.takeWhile inNumber)).natAbs : Int) <
          ((10 ^ (t.takeWhile inNumber).length : Nat) : Int) := by
        rw [Int.natAbs_of_nonneg h0]
        exact_mod_cast hlt
      exact_mod_cast this
    have hsplit : (t.takeWhile inNumber).length + (t.dropWhile inNumber).length = t.length := by
      rw [← List.length_append, List.takeWhile_append_dropWhile]
    omega

include he in
theorem readNumber_spelled {t r : Text} {n : Int} (h : Spelled e t)
    (hr : readNumber t = some (n, r)) :
    Spelled e r ∧ (intToString n).length + r.length ≤ t.length := by
  rw [readNumber.eq_def] at hr
  split at hr
  · rename_i t
    rw [Option.map_eq_some_iff] at hr
    obtain ⟨⟨m, r'⟩, hnat, heq⟩ := hr
    simp only [Prod.mk.injEq] at heq
    obtain ⟨rfl, rfl⟩ := heq
    obtain ⟨hrest, h0, hlen⟩ := readNat_spelled he (h.tail he (by decide)) hnat
    refine ⟨hrest, ?_⟩
    rw [intToString, Int.natAbs_neg]
    split <;> simp only [List.length_cons] <;> omega
  · obtain ⟨hrest, h0, hlen⟩ := readNat_spelled he h hr
    refine ⟨hrest, ?_⟩
    rw [intToString, if_neg (by omega)]
    exact hlen

/-! ## Reading a value -/

include he in
/-- Behind some characters after blanks. -/
theorem Spelled.behind {t w u : Text} (h : Spelled e t) (hs : Json.skipSpace t = w ++ u)
    (hw : '\\' ∉ w) : Spelled e u ∧ w.length + u.length ≤ t.length := by
  have hskip := h.skipSpace he
  have hlen := skipSpace_length t
  rw [hs] at hskip hlen
  rw [List.length_append] at hlen
  exact ⟨hskip.drop he hw, hlen⟩

section
variable (e)

/-- What the writer writes for a value. -/
def written (v : Value) : Text := write (fun s => s.flatMap e) v

def writtenElems (xs : Elems) : Text := writeElems (fun s => s.flatMap e) xs

def writtenFields (fs : Fields) : Text := writeFields (fun s => s.flatMap e) fs

theorem writtenElems_length (x : Value) (xs : Elems) : (writtenElems e (.cons x xs)).length ≤
    (written e x).length + 1 + (writtenElems e xs).length := by
  cases xs with
  | nil =>
    simp only [writtenElems, written, writeElems]
    omega
  | cons y ys =>
    simp only [writtenElems, written, writeElems, List.length_append, List.length_cons]
    omega

theorem writtenFields_length (k : Text) (x : Value) (fs : Fields) :
    (writtenFields e (.cons k x fs)).length ≤
      (k.flatMap e).length + (written e x).length + 4 + (writtenFields e fs).length := by
  cases fs with
  | nil =>
    simp only [writtenFields, written, writeFields, List.length_append, List.length_cons]
    omega
  | cons l y fs =>
    simp only [writtenFields, written, writeFields, List.length_append, List.length_cons]
    omega

/-! ## Lists with commas -/

/-- Parts with commas between them, and one in front if they are not the first. -/
def joined (first : Bool) (ts : List Text) : Text :=
  if first then [','].intercalate ts else ts.flatMap (',' :: ·)

theorem joined_cons (first : Bool) (t : Text) (ts : List Text) :
    joined first (t :: ts) = (if first then [] else [',']) ++ (t ++ joined false ts) := by
  cases first with
  | false => simp [joined]
  | true =>
    simp only [joined, if_true, Bool.false_eq_true, if_false, List.nil_append]
    induction ts generalizing t with
    | nil => simp
    | cons u ts ih => rw [List.intercalate_cons_cons, ih, List.flatMap_cons]; simp

theorem not_mem_joined {c : Char} (hc : c ≠ ',') (first : Bool) {ts : List Text}
    (h : ∀ t ∈ ts, c ∉ t) : c ∉ joined first ts := by
  induction ts generalizing first with
  | nil => cases first <;> simp [joined]
  | cons t ts ih =>
    rw [joined_cons]
    simp only [List.mem_append, not_or]
    refine ⟨?_, h t List.mem_cons_self, ih false fun u hu => h u (List.mem_cons_of_mem t hu)⟩
    cases first <;> simp [hc]

theorem joined_length_le {α : Type} {f g : α → Text} {xs : List α} (first : Bool)
    (h : ∀ x ∈ xs, (f x).length ≤ (g x).length) :
    (joined first (xs.map f)).length ≤ (joined first (xs.map g)).length := by
  induction xs generalizing first with
  | nil => exact le_refl _
  | cons x xs ih =>
    have hx := h x List.mem_cons_self
    have hxs := ih false fun y hy => h y (List.mem_cons_of_mem x hy)
    simp only [List.map_cons, joined_cons, List.length_append]
    omega

theorem joined_length_lt {α : Type} {f g : α → Text} {xs : List α} (first : Bool)
    (h : ∀ x ∈ xs, (f x).length ≤ (g x).length) {x : α} (hx : x ∈ xs)
    (hlt : (f x).length < (g x).length) :
    (joined first (xs.map f)).length < (joined first (xs.map g)).length := by
  induction xs generalizing first with
  | nil => cases hx
  | cons y xs ih =>
    have hxs : ∀ z ∈ xs, (f z).length ≤ (g z).length := fun z hz => h z (List.mem_cons_of_mem y hz)
    simp only [List.map_cons, joined_cons, List.length_append]
    rcases List.mem_cons.mp hx with rfl | hx
    · have := joined_length_le false hxs
      omega
    · have hy := h y List.mem_cons_self
      have := ih false hxs hx
      omega

theorem written_arr (xs : List Value) :
    written e (.arr (.ofList xs)) = '[' :: (joined true (xs.map (written e)) ++ [']']) := by
  have helems : writtenElems e (.ofList xs) = joined true (xs.map (written e)) := by
    induction xs with
    | nil => rfl
    | cons x xs ih =>
      cases xs with
      | nil => simp [Elems.ofList, writtenElems, written, joined]
      | cons y ys =>
        rw [List.map_cons, joined_cons, if_pos rfl, List.nil_append]
        rw [List.map_cons, joined_cons, if_pos rfl, List.nil_append] at ih
        rw [List.map_cons, joined_cons, ← ih]
        rfl
  rw [← helems]
  rfl

/-- What is written for a member of an object. -/
def writtenField (f : Text × Value) : Text :=
  '"' :: (f.1.flatMap e ++ '"' :: ':' :: written e f.2)

theorem written_obj (fs : List (Text × Value)) :
    written e (.obj (.ofList fs)) =
      '\x7b' :: (joined true (fs.map (writtenField e)) ++ ['\x7d']) := by
  have hfields : writtenFields e (.ofList fs) = joined true (fs.map (writtenField e)) := by
    induction fs with
    | nil => rfl
    | cons f fs ih =>
      obtain ⟨k, x⟩ := f
      cases fs with
      | nil => simp [Fields.ofList, writtenFields, writtenField, written, joined]
      | cons g gs =>
        obtain ⟨l, y⟩ := g
        rw [List.map_cons, joined_cons, if_pos rfl, List.nil_append]
        rw [List.map_cons, joined_cons, if_pos rfl, List.nil_append] at ih
        rw [List.map_cons, joined_cons, ← ih]
        simp [Fields.ofList, writtenFields, writtenField, written]
  rw [← hfields]
  rfl

/-! ## No shorter text -/

/-- Texts from which `n` levels read values of no longer texts. -/
structure Shortest (n : Nat) : Prop where
  value : ∀ {t v r}, Spelled e t → readValue n t = some (v, r) →
    Spelled e r ∧ (written e v).length + r.length ≤ t.length
  elems : ∀ {t xs r}, Spelled e t → readElems n t = some (xs, r) →
    Spelled e r ∧ (writtenElems e xs).length + 1 + r.length ≤ t.length
  fields : ∀ {t fs r}, Spelled e t → readFields n t = some (fs, r) →
    Spelled e r ∧ (writtenFields e fs).length + 1 + r.length ≤ t.length

end

include he in
theorem Shortest.nextValue {n : Nat} (hn : Shortest e n) {t r : Text} {v : Value}
    (h : Spelled e t) (hr : readValue (n + 1) t = some (v, r)) :
    Spelled e r ∧ (written e v).length + r.length ≤ t.length := by
  rw [readValue] at hr
  split at hr
  · rename_i u hu
    obtain ⟨hrest, hlen⟩ := h.behind he (w := ['"']) hu (by decide)
    rw [Option.map_eq_some_iff] at hr
    obtain ⟨⟨s, r'⟩, hbody, heq⟩ := hr
    simp only [Prod.mk.injEq] at heq
    obtain ⟨rfl, rfl⟩ := heq
    obtain ⟨hr', hb⟩ := readBody_spelled he hrest hbody
    refine ⟨hr', ?_⟩
    simp only [written, write, List.length_cons, List.length_append, List.length_nil] at hlen ⊢
    omega
  · rename_i u hu
    obtain ⟨hrest, hlen⟩ := h.behind he (w := ['[']) hu (by decide)
    rw [List.length_singleton] at hlen
    split at hr
    · rename_i w hw
      rw [Option.some.injEq, Prod.mk.injEq] at hr
      obtain ⟨rfl, rfl⟩ := hr
      obtain ⟨hr', hb⟩ := hrest.behind he (w := [']']) hw (by decide)
      refine ⟨hr', ?_⟩
      simp only [written, write, writeElems, List.length_cons, List.length_append,
        List.length_nil] at hb ⊢
      omega
    · rw [Option.map_eq_some_iff] at hr
      obtain ⟨⟨xs, r'⟩, helems, heq⟩ := hr
      simp only [Prod.mk.injEq] at heq
      obtain ⟨rfl, rfl⟩ := heq
      obtain ⟨hr', hb⟩ := hn.elems (hrest.skipSpace he) helems
      have := skipSpace_length u
      refine ⟨hr', ?_⟩
      simp only [written, write, List.length_cons, List.length_append, List.length_nil]
      rw [writtenElems] at hb
      omega
  · rename_i u hu
    obtain ⟨hrest, hlen⟩ := h.behind he (w := ['\x7b']) hu (by decide)
    rw [List.length_singleton] at hlen
    split at hr
    · rename_i w hw
      rw [Option.some.injEq, Prod.mk.injEq] at hr
      obtain ⟨rfl, rfl⟩ := hr
      obtain ⟨hr', hb⟩ := hrest.behind he (w := ['\x7d']) hw (by decide)
      refine ⟨hr', ?_⟩
      simp only [written, write, writeFields, List.length_cons, List.length_append,
        List.length_nil] at hb ⊢
      omega
    · rw [Option.map_eq_some_iff] at hr
      obtain ⟨⟨fs, r'⟩, hfields, heq⟩ := hr
      simp only [Prod.mk.injEq] at heq
      obtain ⟨rfl, rfl⟩ := heq
      obtain ⟨hr', hb⟩ := hn.fields (hrest.skipSpace he) hfields
      have := skipSpace_length u
      refine ⟨hr', ?_⟩
      simp only [written, write, List.length_cons, List.length_append, List.length_nil]
      rw [writtenFields] at hb
      omega
  · rename_i u hu
    rw [Option.some.injEq, Prod.mk.injEq] at hr
    obtain ⟨rfl, rfl⟩ := hr
    exact h.behind he (w := ['t', 'r', 'u', 'e']) hu (by decide)
  · rename_i u hu
    rw [Option.some.injEq, Prod.mk.injEq] at hr
    obtain ⟨rfl, rfl⟩ := hr
    exact h.behind he (w := ['f', 'a', 'l', 's', 'e']) hu (by decide)
  · rename_i u hu
    rw [Option.some.injEq, Prod.mk.injEq] at hr
    obtain ⟨rfl, rfl⟩ := hr
    exact h.behind he (w := ['n', 'u', 'l', 'l']) hu (by decide)
  · rw [Option.map_eq_some_iff] at hr
    obtain ⟨⟨m, r'⟩, hnum, heq⟩ := hr
    simp only [Prod.mk.injEq] at heq
    obtain ⟨rfl, rfl⟩ := heq
    obtain ⟨hr', hb⟩ := readNumber_spelled he (h.skipSpace he) hnum
    have := skipSpace_length t
    refine ⟨hr', ?_⟩
    simp only [written, write]
    omega

include he in
theorem Shortest.nextElems {n : Nat} (hn : Shortest e n) {t r : Text} {xs : Elems}
    (h : Spelled e t) (hr : readElems (n + 1) t = some (xs, r)) :
    Spelled e r ∧ (writtenElems e xs).length + 1 + r.length ≤ t.length := by
  rw [readElems] at hr
  split at hr
  · rename_i x u hx
    obtain ⟨hu, hlen⟩ := hn.value h hx
    split at hr
    · rename_i w hw
      rw [Option.map_eq_some_iff] at hr
      obtain ⟨⟨ys, r'⟩, helems, heq⟩ := hr
      simp only [Prod.mk.injEq] at heq
      obtain ⟨rfl, rfl⟩ := heq
      obtain ⟨hw', hb⟩ := hu.behind he (w := [',']) hw (by decide)
      obtain ⟨hr', hys⟩ := hn.elems hw' helems
      have := writtenElems_length e x ys
      rw [List.length_singleton] at hb
      exact ⟨hr', by omega⟩
    · rename_i w hw
      rw [Option.some.injEq, Prod.mk.injEq] at hr
      obtain ⟨rfl, rfl⟩ := hr
      obtain ⟨hw', hb⟩ := hu.behind he (w := [']']) hw (by decide)
      rw [List.length_singleton] at hb
      refine ⟨hw', ?_⟩
      rw [written] at hlen
      rw [writtenElems, writeElems]
      omega
    · cases hr
  · cases hr

include he in
theorem Shortest.nextFields {n : Nat} (hn : Shortest e n) {t r : Text} {fs : Fields}
    (h : Spelled e t) (hr : readFields (n + 1) t = some (fs, r)) :
    Spelled e r ∧ (writtenFields e fs).length + 1 + r.length ≤ t.length := by
  rw [readFields] at hr
  split at hr
  · rename_i a ha
    obtain ⟨ha', hopen⟩ := h.behind he (w := ['"']) ha (by decide)
    rw [List.length_singleton] at hopen
    split at hr
    · rename_i k b hk
      obtain ⟨hb', hkey⟩ := readBody_spelled he ha' hk
      split at hr
      · rename_i c hc
        obtain ⟨hc', hcolon⟩ := hb'.behind he (w := [':']) hc (by decide)
        rw [List.length_singleton] at hcolon
        split at hr
        · rename_i x d hx
          obtain ⟨hd', hval⟩ := hn.value hc' hx
          split at hr
          · rename_i w hw
            rw [Option.map_eq_some_iff] at hr
            obtain ⟨⟨gs, r'⟩, hfields, heq⟩ := hr
            simp only [Prod.mk.injEq] at heq
            obtain ⟨rfl, rfl⟩ := heq
            obtain ⟨hw', hcomma⟩ := hd'.behind he (w := [',']) hw (by decide)
            obtain ⟨hr', hgs⟩ := hn.fields hw' hfields
            have := writtenFields_length e k x gs
            rw [List.length_singleton] at hcomma
            exact ⟨hr', by omega⟩
          · rename_i w hw
            rw [Option.some.injEq, Prod.mk.injEq] at hr
            obtain ⟨rfl, rfl⟩ := hr
            obtain ⟨hw', hclose⟩ := hd'.behind he (w := ['\x7d']) hw (by decide)
            rw [List.length_singleton] at hclose
            refine ⟨hw', ?_⟩
            rw [written] at hval
            simp only [writtenFields, writeFields, List.length_cons, List.length_append]
            omega
          · cases hr
        · cases hr
      · cases hr
    · cases hr
  · cases hr

include he in
theorem shortest (n : Nat) : Shortest e n := by
  induction n with
  | zero => exact {
      value := fun _ hr => by simp at hr
      elems := fun _ hr => by simp at hr
      fields := fun _ hr => by simp at hr }
  | succ n ih => exact ⟨ih.nextValue he, ih.nextElems he, ih.nextFields he⟩

include he in
/-- **No text is shorter than the written one**, if its backslashes start escapes of the writer. -/
theorem write_le_of_read {t : Text} {v : Value} (h : Spelled e t) (hr : read t = some v) :
    (written e v).length ≤ t.length := by
  rw [read] at hr
  split at hr
  · rename_i v' rest hval
    split_ifs at hr
    rw [← Option.some.inj hr]
    have := ((shortest he _).value h hval).2
    omega
  · cases hr

end

end Lib.Json
