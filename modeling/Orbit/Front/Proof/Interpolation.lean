import Orbit.Front.Interpolation
import Orbit.Front.Proof.Lexer

/-!
# Interpolated strings are split as they were lexed

The parser's scan for the end of a hole stops where the lexer's does, as long as the lexer stops
inside the literal (`closeFrom_of_skipHoleFrom`); so an ordinary literal that is closed has the holes
that the lexer skipped (`holes_cutFrom`), and the pieces of any literal whose holes are closed make up
its body (`flatMap_cutFrom`). Parsing the pieces leaves the parser where it was
(`parseInterpolation_restores`).
-/

namespace Front

open Lib
open Front.Lex (Text Lexer)

/-! ## Quotes -/

theorem quotedRest_suffix (quote : Char) (t : Text) : quotedRest quote t <:+ t := by
  fun_induction quotedRest quote t with
  | case1 => exact List.suffix_refl _
  | case2 t ih => exact (ih.trans (List.drop_suffix 1 t)).trans (List.suffix_cons _ t)
  | case3 t _ => exact List.suffix_cons quote t
  | case4 c t _ _ ih => exact ih.trans (List.suffix_cons c t)

theorem quotedRest_cons {quote c : Char} (t : Text) (hc : c ≠ '\\') :
    quotedRest quote (c :: t) = if c = quote then t else quotedRest quote t := by
  rw [quotedRest]
  exact fun h => hc h

theorem rest_skipQuoted {quote : Char} {fuel : Nat} {l : Lexer}
    (hf : l.rest.length ≤ fuel) : (Lex.skipQuoted quote fuel l).rest = quotedRest quote l.rest := by
  induction fuel generalizing l with
  | zero =>
    have hl : l.rest = [] := List.length_eq_zero_iff.mp (by omega)
    rw [Lex.skipQuoted, hl, quotedRest]
  | succ fuel ih =>
    rw [Lex.skipQuoted]
    cases hl : l.rest with
    | nil => rw [if_pos rfl, hl, quotedRest]
    | cons c t =>
      have ht : l.advance.rest = t := by rw [Lex.rest_advance, hl, List.tail_cons]
      have hlen : l.rest.length = t.length + 1 := by rw [hl, List.length_cons]
      rw [if_neg (List.cons_ne_nil c t), Lex.peek_cons hl]
      split
      · next hc =>
        rw [hc, quotedRest, ih (by rw [Lex.rest_advance, ht, List.length_tail]; omega),
          Lex.rest_advance, ht, List.drop_one]
      · next hc =>
        rw [quotedRest_cons t hc]
        split
        · exact ht
        · rw [ih (by rw [ht]; omega), ht]

theorem length_quotedRest_lt (quote : Char) {t : Text} (hne : t ≠ []) :
    (quotedRest quote t).length < t.length := by
  obtain ⟨c, t, rfl⟩ := List.exists_cons_of_ne_nil hne
  rw [List.length_cons, Nat.lt_succ_iff]
  by_cases hc : c = '\\'
  · rw [hc, quotedRest]
    exact ((quotedRest_suffix quote _).trans (List.drop_suffix 1 t)).length_le
  · rw [quotedRest_cons t hc]
    split
    · exact le_rfl
    · exact (quotedRest_suffix quote t).length_le

/-- A quoted string that ends in front of a text ends there without that text. -/
theorem quotedRest_append (quote : Char) {w tail : Text} (hne : tail ≠ [])
    (h : tail.length ≤ (quotedRest quote (w ++ tail)).length) :
    quotedRest quote (w ++ tail) = quotedRest quote w ++ tail := by
  fun_induction quotedRest quote w with
  | case1 =>
    rw [List.nil_append] at h
    exact absurd (length_quotedRest_lt quote hne) (by omega)
  | case2 t ih =>
    rw [List.cons_append, quotedRest] at h ⊢
    cases t with
    | nil =>
      have hlt := length_quotedRest_lt quote hne
      have hle := (quotedRest_suffix quote (tail.drop 1)).length_le
      have hpos := List.length_pos_of_ne_nil hne
      rw [List.nil_append] at h
      rw [List.length_drop] at hle
      omega
    | cons d t => exact ih h
  | case3 t hc => rw [List.cons_append, quotedRest_cons _ hc, if_pos rfl]
  | case4 c t hc hq ih =>
    rw [List.cons_append, quotedRest_cons _ hc, if_neg hq] at h ⊢
    exact ih h

/-! ## Holes -/

theorem length_skipHoleFrom_lt (fuel depth : Nat) {l : Lexer} (hne : l.rest ≠ []) :
    (Lex.skipHoleFrom (fuel + 1) depth l).rest.length < l.rest.length := by
  refine Lex.Walks.length_lt hne ?_
  rw [Lex.skipHoleFrom, if_neg hne]
  split
  · exact (Lex.walks_skipQuoted _ _ _).trans (Lex.walks_skipHoleFrom _ _ _)
  · split
    · exact Lex.walks_skipHoleFrom _ _ _
    · split
      · split
        · exact Lex.Walks.refl _
        · exact Lex.walks_skipHoleFrom _ _ _
      · exact Lex.walks_skipHoleFrom _ _ _

/-- **A hole that the lexer closes in front of a text is closed there by the parser, whose scan ends
at that text.** -/
theorem closeFrom_of_skipHoleFrom {fuel depth i n : Nat} {l : Lexer} {w tail : Text}
    (hl : l.rest = w ++ tail) (hne : tail ≠ []) (hn : w.length < n) (hf : l.rest.length ≤ fuel)
    (h : tail.length ≤ (Lex.skipHoleFrom fuel depth l).rest.length) :
    closeFrom n depth i w =
      some (i + (l.rest.length - (Lex.skipHoleFrom fuel depth l).rest.length) - 1) := by
  induction fuel generalizing depth i n l w with
  | zero =>
    have := List.length_pos_of_ne_nil hne
    rw [hl, List.length_append] at hf
    omega
  | succ fuel ih =>
    have hlne : l.rest ≠ [] := by
      rw [hl]
      exact List.append_ne_nil_of_right_ne_nil w hne
    cases w with
    | nil =>
      have := length_skipHoleFrom_lt fuel depth hlne
      rw [hl, List.nil_append] at this
      omega
    | cons c w =>
      obtain ⟨n, rfl⟩ : ∃ m, n = m + 1 := ⟨n - 1, by omega⟩
      have hr : l.advance.rest = w ++ tail := by rw [Lex.rest_advance, hl]; rfl
      have hlen : l.rest.length = l.advance.rest.length + 1 := by rw [hr, hl]; rfl
      rw [Lex.skipHoleFrom, if_neg hlne, Lex.peek_cons hl] at h ⊢
      rw [closeFrom]
      have step : ∀ d, tail.length ≤ (Lex.skipHoleFrom fuel d l.advance).rest.length →
          closeFrom n d (i + 1) w = some (i + (l.rest.length -
            (Lex.skipHoleFrom fuel d l.advance).rest.length) - 1) := by
        intro d hd
        have hle := (Lex.walks_skipHoleFrom fuel d l.advance).length_le
        rw [ih hr (by simpa using hn) (by omega) hd]
        congr 1
        omega
      by_cases hq : c = '"' ∨ c = '\''
      · simp only [if_pos hq] at h ⊢
        have hk : (Lex.skipQuoted c l.rest.length l.advance).rest = quotedRest c (w ++ tail) := by
          rw [rest_skipQuoted (by omega), hr]
        have hle := (Lex.walks_skipHoleFrom fuel depth
          (Lex.skipQuoted c l.rest.length l.advance)).length_le
        have happ := quotedRest_append c (w := w) hne (by rw [← hk]; omega)
        have hw := (quotedRest_suffix c w).length_le
        rw [List.length_cons] at hn
        rw [hk, happ, List.length_append] at hle
        rw [hr, List.length_append] at hlen
        rw [ih (hk.trans happ) (by omega) (by rw [hk, happ, List.length_append]; omega) h, hk, happ,
          List.length_append]
        congr 1
        omega
      · simp only [if_neg hq] at h ⊢
        by_cases ho : c = '\x7b'
        · simp only [if_pos ho] at h ⊢
          exact step _ h
        · simp only [if_neg ho] at h ⊢
          by_cases hc : c = '\x7d'
          · simp only [if_pos hc] at h ⊢
            by_cases hd : depth = 0
            · simp only [if_pos hd] at h ⊢
              congr 1
              omega
            · simp only [if_neg hd] at h ⊢
              exact step _ h
          · simp only [if_neg hc] at h ⊢
            exact step _ h

/-! ## Cuts -/

theorem cutFrom_skip {text : Text} {e n cs i : Nat} (hn : 0 < n)
    (h : i + 1 < e → ¬ (text[i]? = some '$' ∧ text[i + 1]? = some '\x7b')) :
    cutFrom text e (n + 1) cs i = cutFrom text e n cs (i + 1) := by
  obtain ⟨n, rfl⟩ : ∃ m, n = m + 1 := ⟨n - 1, by omega⟩
  by_cases hi : i + 1 < e
  · rw [cutFrom, if_pos hi, if_neg (h hi)]
  · rw [cutFrom, if_neg hi, cutFrom, if_neg (show ¬ i + 1 + 1 < e by omega)]

theorem cutFrom_hole {text : Text} {e n cs i close : Nat} (hi : i + 1 < e)
    (h : text[i]? = some '$' ∧ text[i + 1]? = some '\x7b')
    (hc : findInterpCloseRange text i e = some close) :
    cutFrom text e (n + 1) cs i =
      ((if cs < i then [.chunk (Lex.sliceAt text cs i)] else []) ++
        .hole (i + 2) close :: (cutFrom text e n (close + 1) (close + 1)).1,
      (cutFrom text e n (close + 1) (close + 1)).2) := by
  rw [cutFrom, if_pos hi, if_pos h, hc]

theorem holes_append (cs cs' : List Cut) : holes (cs ++ cs') = holes cs ++ holes cs' :=
  List.filterMap_append

theorem holes_chunk (p : Prop) [Decidable p] (t : Text) :
    holes (if p then [.chunk t] else []) = [] := by
  split <;> rfl

theorem holes_hole (start close : Nat) (cs : List Cut) :
    holes (.hole start close :: cs) = (start, close) :: holes cs := rfl

section
variable {text tail : Text} {e : Nat}

/-- The pieces have the holes that the lexer skipped, and all of them are closed. -/
def Agrees (text tail : Text) (e : Nat) (r : List Cut × Bool) (hs : List (Lexer × Lexer)) : Prop :=
  r.2 = true ∧ holes r.1 = hs.map (holeRange (e + tail.length)) ∧
    ∀ h ∈ hs, findInterpCloseRange text (e + tail.length - h.1.rest.length) e =
      some (holeRange (e + tail.length) h).2

theorem agrees_end {n cs i : Nat} (hi : ¬ i + 1 < e) (hn : 0 < n) :
    Agrees text tail e (cutFrom text e n cs i) [] := by
  obtain ⟨n, rfl⟩ : ∃ m, n = m + 1 := ⟨n - 1, by omega⟩
  rw [cutFrom, if_neg hi]
  refine ⟨rfl, ?_, fun h hh => absurd hh List.not_mem_nil⟩
  dsimp only
  split <;> rfl

theorem drop_take_cons {i : Nat} {c : Char} {w : Text} (h : (text.take e).drop i = c :: w) :
    text[i]? = some c ∧ i < e ∧ (text.take e).drop (i + 1) = w := by
  have hc : (text.take e)[i]? = some c := by rw [← List.head?_drop, h]; rfl
  obtain ⟨hlt, -⟩ := List.getElem?_eq_some_iff.mp hc
  have hie : i < e := lt_of_lt_of_le hlt (List.length_take_le e text)
  refine ⟨by rwa [List.getElem?_take_of_lt hie] at hc, hie, ?_⟩
  rw [← List.drop_drop, h]
  rfl

/-- A walk that leaves at least what is behind the literal ends inside it. -/
theorem Walks.inside {i : Nat} {k l : Lexer} (hk : k.rest = (text.take e).drop i ++ tail)
    (hw : Lex.Walks k l) (h : tail.length ≤ l.rest.length) (hi : i ≤ e) (he : e ≤ text.length) :
    l.rest = (text.take e).drop (e + tail.length - l.rest.length) ++ tail ∧
      e + tail.length - l.rest.length ≤ e := by
  obtain ⟨m, rfl⟩ := hw
  have hlen : k.rest.length = e - i + tail.length := by
    rw [hk, List.length_append, List.length_drop, List.length_take_of_le he]
  rw [Lex.rest_advanceBy] at h ⊢
  rw [List.length_drop] at h ⊢
  by_cases hm : m ≤ e - i
  · have hj : e + tail.length - (k.rest.length - m) = i + m := by omega
    rw [hj, hk, List.drop_append_of_le_length
      (by rw [List.length_drop, List.length_take_of_le he]; exact hm), List.drop_drop]
    exact ⟨rfl, by omega⟩
  · -- nothing is left of a text that is itself empty
    have htail : tail = [] := List.length_eq_zero_iff.mp (by omega)
    rw [htail] at hlen h ⊢
    rw [List.length_nil] at hlen h
    have hj : e + ([] : Text).length - (k.rest.length - m) = e := by
      rw [List.length_nil]
      omega
    rw [hj, List.drop_eq_nil_of_le (by omega), List.drop_eq_nil_of_le (List.length_take_le e text)]
    exact ⟨rfl, le_rfl⟩

/-- One step of both scans, from a cursor that stands in front of no escape. -/
theorem agrees_step (he : e ≤ text.length) (htail : tail.head? = some '"') {fuel : Nat}
    (ih : ∀ {saw : Bool} {l : Lexer} {i cs n : Nat}, l.rest = (text.take e).drop i ++ tail →
      i ≤ e → l.rest.length ≤ fuel → e - i < n → (Lex.scanString fuel saw l).2.rest = tail →
      Agrees text tail e (cutFrom text e n cs i) (lexedHoles fuel l))
    {saw : Bool} {k : Lexer} {d : Char} {w : Text} {i cs n : Nat}
    (hk : k.rest = (text.take e).drop i ++ tail) (hd : (text.take e).drop i = d :: w)
    (hf : k.rest.length ≤ fuel + 1) (hn : e - i < n)
    (hscan : (if k.peek = '$' ∧ k.peekNext = '\x7b' then
      Lex.scanString fuel true (Lex.skipInterpHole k)
      else Lex.scanString fuel saw k.advance).2.rest = tail) :
    Agrees text tail e (cutFrom text e n cs i)
      (if k.peek = '$' ∧ k.peekNext = '\x7b' then
        (k, Lex.skipInterpHole k) :: lexedHoles fuel (Lex.skipInterpHole k)
      else lexedHoles fuel k.advance) := by
  obtain ⟨hdi, hie, hw⟩ := drop_take_cons hd
  have hkc : k.rest = d :: (w ++ tail) := by rw [hk, hd]; rfl
  have hadv : k.advance.rest = w ++ tail := by rw [Lex.rest_advance, hkc]; rfl
  have hlen : k.rest.length = k.advance.rest.length + 1 := by rw [hadv, hkc]; rfl
  obtain ⟨n, rfl⟩ : ∃ m, n = m + 1 := ⟨n - 1, by omega⟩
  by_cases hole : k.peek = '$' ∧ k.peekNext = '\x7b'
  · rw [if_pos hole] at hscan ⊢
    rw [Lex.peek_cons hkc, Lex.peekNext_eq hkc] at hole
    cases w with
    | nil =>
      obtain ⟨t, rfl⟩ : ∃ t, tail = '"' :: t := by
        cases tail with
        | nil => exact absurd htail (by simp)
        | cons c t => exact ⟨t, by rw [Option.some.inj htail]⟩
      exact absurd (show '"' = '\x7b' from hole.2) (by decide)
    | cons b w =>
      obtain ⟨hbi, hie', hw'⟩ := drop_take_cons hw
      have hdeep : k.advance.advance.rest = (text.take e).drop (i + 2) ++ tail := by
        rw [Lex.rest_advance, hadv, hw']
        rfl
      have hsub := (Lex.walks_scanString fuel true (Lex.skipInterpHole k)).length_le
      rw [hscan] at hsub
      obtain ⟨hrest, hj⟩ := Walks.inside hk (Lex.walks_skipInterpHole k) hsub hie.le he
      have hklen : k.rest.length = e - i + tail.length := by
        rw [hk, List.length_append, List.length_drop, List.length_take_of_le he]
      have hwin : ((text.take e).drop (i + 2)).length = e - (i + 2) := by
        rw [List.length_drop, List.length_take_of_le he]
      have hdlen : k.advance.advance.rest.length = e - (i + 2) + tail.length := by
        rw [hdeep, List.length_append, hwin]
      have hle : (Lex.skipInterpHole k).rest.length ≤ k.advance.advance.rest.length :=
        (Lex.walks_skipHoleFrom _ _ _).length_le
      have hne : tail ≠ [] := by
        rintro rfl
        exact absurd htail (by simp)
      have hclose : findInterpCloseRange text i e =
          some (e + tail.length - (Lex.skipInterpHole k).rest.length - 1) := by
        refine (closeFrom_of_skipHoleFrom hdeep hne (Nat.lt_succ_self _) (by omega) hsub).trans ?_
        change some (i + 2 + (k.advance.advance.rest.length -
          (Lex.skipInterpHole k).rest.length) - 1) = _
        congr 1
        omega
      generalize hstop : e + tail.length - (Lex.skipInterpHole k).rest.length = j at *
      have hstart : e + tail.length - k.rest.length = i := by omega
      rw [cutFrom_hole hie' ⟨by rw [hdi, ← hole.1], by rw [hbi, ← hole.2]; rfl⟩ hclose,
        Nat.sub_add_cancel (by omega : 1 ≤ j)]
      have hrec : Agrees text tail e (cutFrom text e n j j)
        (lexedHoles fuel (Lex.skipInterpHole k)) := ih hrest hj (by omega) (by omega) hscan
      obtain ⟨hclosed, hholes, hranges⟩ := hrec
      refine ⟨hclosed, ?_, ?_⟩
      · rw [holes_append, holes_chunk, holes_hole, hholes, List.nil_append, List.map_cons, holeRange,
          hstart, hstop]
      · intro h hh
        rcases List.mem_cons.mp hh with rfl | hh
        · rw [hstart, hclose, holeRange, hstop]
        · exact hranges h hh
  · rw [if_neg hole] at hscan ⊢
    have hno : i + 1 < e → ¬ (text[i]? = some '$' ∧ text[i + 1]? = some '\x7b') := by
      rintro hi ⟨h0, h1⟩
      cases w with
      | nil =>
        have hlen := congrArg List.length hw
        rw [List.length_drop, List.length_take_of_le he, List.length_nil] at hlen
        omega
      | cons b w =>
        rw [Lex.peek_cons hkc, Lex.peekNext_eq hkc] at hole
        obtain ⟨hbi, -⟩ := drop_take_cons hw
        rw [hdi] at h0
        rw [hbi] at h1
        exact hole ⟨Option.some.inj h0, Option.some.inj h1⟩
    rw [cutFrom_skip (by omega) hno]
    exact ih (by rw [hadv, hw]) (by omega) (by omega) (by omega) hscan

theorem agrees_cutFrom (he : e ≤ text.length) (htail : tail.head? = some '"') {fuel : Nat}
    {saw : Bool} {l : Lexer} {i cs n : Nat} (hl : l.rest = (text.take e).drop i ++ tail)
    (hi : i ≤ e) (hf : l.rest.length ≤ fuel) (hn : e - i < n)
    (hscan : (Lex.scanString fuel saw l).2.rest = tail) :
    Agrees text tail e (cutFrom text e n cs i) (lexedHoles fuel l) := by
  obtain ⟨t, rfl⟩ : ∃ t, tail = '"' :: t := by
    cases tail with
    | nil => exact absurd htail (by simp)
    | cons c t => exact ⟨t, by rw [Option.some.inj htail]⟩
  induction fuel generalizing saw l i cs n with
  | zero =>
    rw [hl, List.length_append, List.length_cons] at hf
    omega
  | succ fuel ih =>
    have hstop : ∀ {b : Bool} {m : Lexer}, Lex.Walks m (Lex.scanString fuel b m).2 :=
      Lex.walks_scanString _ _ _
    rw [Lex.scanString] at hscan
    rw [lexedHoles]
    cases hw : (text.take e).drop i with
    | nil =>
      rw [hw, List.nil_append] at hl
      rw [if_pos (.inr (Lex.peek_cons hl))]
      have hlen := congrArg List.length hw
      rw [List.length_drop, List.length_take_of_le he, List.length_nil] at hlen
      exact agrees_end (by omega) (by omega)
    | cons c w =>
      obtain ⟨hc, hie, hw'⟩ := drop_take_cons hw
      have hlc : l.rest = c :: (w ++ '"' :: t) := by rw [hl, hw]; rfl
      have hadv : l.advance.rest = w ++ '"' :: t := by rw [Lex.rest_advance, hlc]; rfl
      have hlen : l.rest.length = l.advance.rest.length + 1 := by rw [hadv, hlc]; rfl
      have hpeek := Lex.peek_cons hlc
      have hquote : c ≠ '"' := by
        rintro rfl
        rw [if_pos (.inr hpeek)] at hscan
        have hlen := congrArg List.length ((show l.rest = _ from hscan).symm.trans hlc)
        simp only [List.length_cons, List.length_append] at hlen
        omega
      have hgo : ¬ (l.rest = [] ∨ l.peek = '"') := by
        rintro (h | h)
        · exact List.cons_ne_nil _ _ (hlc.symm.trans h)
        · exact hquote (hpeek.symm.trans h)
      rw [if_neg hgo] at hscan ⊢
      by_cases hb : c = '\\'
      · -- the character behind a backslash is part of no hole but its own
        rw [if_pos (hpeek.trans hb)] at hscan ⊢
        obtain ⟨n, rfl⟩ : ∃ m, n = m + 1 := ⟨n - 1, by omega⟩
        rw [cutFrom_skip (by omega) (fun _ h => by rw [hc, hb] at h; exact absurd h.1 (by decide))]
        cases w with
        | nil =>
          have hle := (hstop (b := saw) (m := l.advance.advance)).length_le
          have hno : ¬ (l.advance.peek = '$' ∧ l.advance.peekNext = '\x7b') := by
            rw [Lex.peek_cons hadv]
            exact fun h => absurd h.1 (by decide)
          dsimp only at hscan
          rw [if_neg hno] at hscan
          rw [hscan, Lex.rest_advance, hadv] at hle
          rw [List.nil_append, List.tail_cons, List.length_cons] at hle
          omega
        | cons d w =>
          exact agrees_step he rfl (fun h hi hf hn hs => ih hi hf hn h hs) (by rw [hadv, hw']) hw'
            (by omega) (by omega) hscan
      · rw [if_neg (fun h => hb (hpeek.symm.trans h))] at hscan ⊢
        exact agrees_step he rfl (fun h hi hf hn hs => ih hi hf hn h hs) hl hw hf hn hscan

end

/-! ## The body -/

theorem sliceAt_append (text : Text) {i j k : Nat} (hij : i ≤ j) (hjk : j ≤ k) :
    Lex.sliceAt text i j ++ Lex.sliceAt text j k = Lex.sliceAt text i k := by
  have hj : text.take j = (text.take k).take j := by rw [List.take_take, Nat.min_eq_left hjk]
  have hdrop : (text.take k).drop j = ((text.take k).drop i).drop (j - i) := by
    rw [List.drop_drop, Nat.add_sub_cancel' hij]
  rw [Lex.sliceAt, Lex.sliceAt, Lex.sliceAt, hj, List.drop_take, hdrop, List.take_append_drop]

theorem sliceAt_self (text : Text) (i : Nat) : Lex.sliceAt text i i = [] :=
  List.drop_eq_nil_of_le (List.length_take_le i text)

theorem sliceAt_succ {text : Text} {i : Nat} {c : Char} (h : text[i]? = some c) :
    Lex.sliceAt text i (i + 1) = [c] := by
  obtain ⟨hlt, hc⟩ := List.getElem?_eq_some_iff.mp h
  rw [Lex.sliceAt, List.take_succ_eq_append_getElem hlt, List.drop_append_of_le_length
    (by rw [List.length_take_of_le hlt.le]), List.drop_eq_nil_of_le (List.length_take_le i text), hc]
  rfl

/-- A hole is closed by a brace. -/
theorem closeFrom_spec {n depth i j : Nat} {w : Text} (h : closeFrom n depth i w = some j) :
    ∃ m, j = i + m ∧ w[m]? = some '\x7d' := by
  induction n generalizing depth i w with
  | zero => exact absurd h (by simp [closeFrom])
  | succ n ih =>
    cases w with
    | nil => exact absurd h (by simp [closeFrom])
    | cons c t =>
      have next : ∀ {d : Nat}, closeFrom n d (i + 1) t = some j →
          ∃ m, j = i + m ∧ (c :: t)[m]? = some '\x7d' := by
        intro d hd
        obtain ⟨m, rfl, hm⟩ := ih hd
        exact ⟨m + 1, by omega, hm⟩
      rw [closeFrom] at h
      split at h
      · obtain ⟨m, rfl, hm⟩ := ih h
        obtain ⟨q, hq⟩ := quotedRest_suffix c t
        have hlen := congrArg List.length hq
        rw [List.length_append] at hlen
        refine ⟨q.length + m + 1, by omega, ?_⟩
        rw [List.getElem?_cons_succ, ← hq, List.getElem?_append_right (Nat.le_add_right _ _),
          Nat.add_sub_cancel_left]
        exact hm
      · split at h
        · exact next h
        · split at h
          · next hc =>
            split at h
            · exact ⟨0, (Option.some.inj h).symm, by rw [hc]; rfl⟩
            · exact next h
          · exact next h

theorem findInterpCloseRange_spec {text : Text} {i e close : Nat}
    (h : findInterpCloseRange text i e = some close) :
    i + 2 ≤ close ∧ close < e ∧ text[close]? = some '\x7d' := by
  obtain ⟨m, rfl, hm⟩ := closeFrom_spec h
  rw [List.getElem?_drop] at hm
  have hlt : i + 2 + m < e := by
    obtain ⟨hlt, -⟩ := List.getElem?_eq_some_iff.mp hm
    exact lt_of_lt_of_le hlt (List.length_take_le e text)
  rw [List.getElem?_take_of_lt hlt] at hm
  exact ⟨Nat.le_add_right _ _, hlt, hm⟩

theorem flatMap_chunk (text : Text) {i j : Nat} (h : i ≤ j) :
    (if i < j then [Cut.chunk (Lex.sliceAt text i j)] else []).flatMap (Cut.source text) =
      Lex.sliceAt text i j := by
  split
  · exact List.append_nil _
  · rw [show i = j by omega, sliceAt_self]
    rfl

/-- A hole and its delimiters are one stretch of the text. -/
theorem source_hole {text : Text} {i close : Nat}
    (h : text[i]? = some '$' ∧ text[i + 1]? = some '\x7b') (hge : i + 2 ≤ close)
    (hbrace : text[close]? = some '\x7d') :
    Cut.source text (.hole (i + 2) close) = Lex.sliceAt text i (close + 1) := by
  rw [← sliceAt_append text (show i ≤ i + 1 by omega) (show i + 1 ≤ close + 1 by omega),
    ← sliceAt_append text (show i + 1 ≤ i + 1 + 1 by omega) (show i + 1 + 1 ≤ close + 1 by omega),
    ← sliceAt_append text hge (show close ≤ close + 1 by omega), sliceAt_succ h.1, sliceAt_succ h.2,
    sliceAt_succ hbrace]
  rfl

/-- **The pieces make up the text that they are cut from.** -/
theorem flatMap_cutFrom {text : Text} {e n cs i : Nat} (hcs : cs ≤ i) (hi : i ≤ e) (hn : e - i < n)
    (h : (cutFrom text e n cs i).2 = true) :
    (cutFrom text e n cs i).1.flatMap (Cut.source text) = Lex.sliceAt text cs e := by
  induction n generalizing cs i with
  | zero => omega
  | succ n ih =>
    by_cases hie : i + 1 < e
    · by_cases hole : text[i]? = some '$' ∧ text[i + 1]? = some '\x7b'
      · cases hc : findInterpCloseRange text i e with
        | none =>
          rw [cutFrom, if_pos hie, if_pos hole, hc] at h
          exact absurd h Bool.false_ne_true
        | some close =>
          obtain ⟨hge, hlt, hbrace⟩ := findInterpCloseRange_spec hc
          rw [cutFrom_hole hie hole hc] at h ⊢
          have hrec := ih le_rfl hlt (by omega) h
          rw [List.flatMap_append, flatMap_chunk text hcs, List.flatMap_cons, hrec,
            source_hole hole hge hbrace, sliceAt_append text (by omega) (by omega),
            sliceAt_append text hcs hi]
      · rw [cutFrom, if_pos hie, if_neg hole] at h ⊢
        exact ih (by omega) (by omega) (by omega) h
    · rw [cutFrom, if_neg hie]
      exact flatMap_chunk text (by omega)

/-! ## The parser's place -/

section
variable {E : Parser → (o : ParserOp) → Answer o → Parser → Prop}

theorem depth_recovered (before p : Parser) : (recovered before p).depth = p.depth := by
  rw [recovered]
  split <;> rfl

/-- One level down and up again. -/
theorem depth_guarded {inner : ParserM ASTNode} {p p' : Parser} {out : ASTNode}
    (hE : ∀ p o r p', E p o r p' → p'.depth = p.depth) (h : Guarded E inner p out p') :
    p'.depth = p.depth := by
  dsimp only [Guarded] at h
  split at h
  · obtain ⟨-, rfl⟩ := h
    rfl
  · obtain ⟨q, hrun, rfl⟩ := h
    have hq : q.depth = p.depth + 1 := hrun.keeps hE
    change q.depth - 1 = p.depth
    omega

/-- **No operation of the parser leaves it at another depth.** -/
theorem depth_answers (g : Grammar) {calls : Nat} {p p' : Parser} {o : ParserOp} {r : Answer o}
    (h : Answers g calls p o r p') : p'.depth = p.depth := by
  induction calls generalizing p p' o with
  | zero =>
    cases o with
    | get => rw [h.2]
    | update f =>
      have hp : p' = { f p with depth := p.depth } := h
      rw [hp]
    | parseExpression => exact h.elim
    | parseStatement => exact h.elim
  | succ calls ih =>
    cases o with
    | get => rw [h.2]
    | update f =>
      have hp : p' = { f p with depth := p.depth } := h
      rw [hp]
    | parseExpression => exact depth_guarded (fun _ _ _ _ => ih) h
    | parseStatement =>
      obtain ⟨q, hq, rfl⟩ := h
      rw [depth_recovered]
      exact depth_guarded (fun _ _ _ _ => ih) hq

end

section
variable {g : Grammar} {calls : Nat} {p : Parser}

/-- The runs of a program leave the parser as `Q` says. -/
abbrev Leaves (g : Grammar) (calls : Nat) {α : Type} (c : ParserM α) (Q : α → Parser → Prop)
    (p : Parser) : Prop :=
  Prog.Holds (fun _ _ => True) (Answers g calls) Q c p

theorem leaves_update {α : Type} {f : Parser → Parser} {c : ParserM α} {Q : α → Parser → Prop}
    (h : Leaves g calls c Q { f p with depth := p.depth }) :
    Leaves g calls (.ask (.update f) fun _ => c) Q p := by
  refine ⟨trivial, fun r p' hp => ?_⟩
  cases calls <;> exact (show p' = _ from hp) ▸ h

theorem leaves_get {α : Type} {c : Parser → ParserM α} {Q : α → Parser → Prop}
    (h : Leaves g calls (c p) Q p) : Leaves g calls (.ask .get c) Q p := by
  refine ⟨trivial, fun r p' hp => ?_⟩
  cases calls <;> obtain ⟨rfl, rfl⟩ := hp <;> exact h

theorem leaves_parseExpression {α : Type} {c : ASTNode → ParserM α} {Q : α → Parser → Prop}
    (h : ∀ expr p', p'.depth = p.depth → Leaves g calls (c expr) Q p') :
    Leaves g calls (.ask .parseExpression c) Q p :=
  ⟨trivial, fun expr p' hp => h expr p' (depth_answers g hp)⟩

theorem parseHole_restores (tokStart start close : Nat) :
    Leaves g calls (parseHole tokStart start close) (fun _ p' => p'.place = p.place) p := by
  refine leaves_get (leaves_update (leaves_update (leaves_parseExpression fun expr q hq =>
    leaves_get (leaves_update (leaves_update ?_)))))
  change Leaves g calls (if isAtEnd q then .ret expr else .ask (.update (parserError
    "unexpected text after the expression inside $\x7b")) fun _ => .ret expr) _ _
  have hplace : ∀ r : Parser, r.depth = q.depth →
      (Parser.adopt q.diagnostics { Parser.restore p r with depth := r.depth }).place = p.place := by
    intro r hr
    have hd : r.depth = p.depth := hr.trans hq
    rw [Parser.place, Parser.place]
    simp only [Parser.adopt, Parser.restore, hd]
  split
  · exact hplace q rfl
  · exact leaves_update (hplace q rfl)

theorem parseCuts_restores (tokStart : Nat) (cs : List Cut) :
    Leaves g calls (parseCuts tokStart cs) (fun _ p' => p'.place = p.place) p := by
  induction cs generalizing p with
  | nil => exact rfl
  | cons cut cs ih =>
    cases cut with
    | chunk t => exact Prog.Holds.bind ih fun _ _ h => h
    | hole start close =>
      rw [parseCuts]
      split
      · exact leaves_update (Prog.Holds.mono ih fun _ _ h => h.trans rfl)
      · exact Prog.Holds.bind (parseHole_restores tokStart start close) fun expr q hq =>
          Prog.Holds.bind ih fun _ r hr => hr.trans hq

/-- **A literal is parsed in place.** -/
theorem parseInterpolation_restores (text : Text) (tokStart : Nat) :
    Leaves g calls (parseInterpolation text tokStart) (fun _ p' => p'.place = p.place) p := by
  refine Prog.Holds.bind (parseCuts_restores tokStart (cuts text).1) fun parts q hq => ?_
  split
  · exact hq
  · exact leaves_update hq

/-- A hole that is not closed is reported, and the literal is empty. -/
theorem parseInterpolation_unclosed {text : Text} (tokStart : Nat) (hc : (cuts text).2 = false) :
    Leaves g calls (parseInterpolation text tokStart) (fun node p' =>
      node = .literal "string" "\"\"" ∧ p'.diagnostics.getLast? =
        some ⟨"unterminated interpolation: missing closing brace", p.currentToken.token.line,
          p.currentToken.token.col, "", ""⟩) p := by
  refine Prog.Holds.bind (parseCuts_restores tokStart (cuts text).1) fun parts q hq => ?_
  rw [if_neg (by rw [hc]; exact Bool.false_ne_true)]
  refine leaves_update ⟨rfl, ?_⟩
  have htok : q.currentToken = p.currentToken := congrArg Place.currentToken hq
  change (q.diagnostics ++ [_]).getLast? = _
  rw [List.getLast?_concat, htok]

end

/-! ## The text of a literal -/

theorem raw_iff {s : Lexer} {t : Text} (hs : s.rest = '"' :: t) :
    (s.advance.peek = '"' ∧ s.advance.peekNext = '"') ↔
      ['"', '"', '"'].isPrefixOf s.rest = true := by
  have ht : s.advance.rest = t := by rw [Lex.rest_advance, hs]; rfl
  rw [Lex.Lexer.peek, Lex.Lexer.peekNext, ht, hs]
  cases t with
  | nil => decide
  | cons c t =>
    cases t with
    | nil => simp [Lex.nul]
    | cons d t =>
      change (c = '"' ∧ d = '"') ↔ _
      constructor
      · rintro ⟨rfl, rfl⟩
        rfl
      · intro h
        obtain ⟨rest, h⟩ := List.isPrefixOf_iff_prefix.mp h
        simp only [List.cons_append, List.cons.injEq] at h
        exact ⟨h.2.1.symm, h.2.2.1.symm⟩

/-- The text of an ordinary literal, and what is behind it. -/
theorem ordinary_text {s : Lexer} {t : Text} (hs : s.rest = '"' :: t)
    (hraw : ¬ ['"', '"', '"'].isPrefixOf s.rest = true)
    (hc : (Lex.scanString s.advance.rest.length false s.advance).2.peek = '"') :
    ∃ w after, s.advance.rest = w ++ '"' :: after ∧
      (Lex.scanString s.advance.rest.length false s.advance).2.rest = '"' :: after ∧
      Lex.slice s (Lex.lexString s.advance).2 = '"' :: w ++ ['"'] := by
  have hwalk := Lex.walks_scanString s.advance.rest.length false s.advance
  rw [Lex.lexString, if_neg (fun h => hraw ((raw_iff hs).mp h))]
  generalize Lex.scanString s.advance.rest.length false s.advance = r at *
  rcases r with ⟨saw, q⟩
  dsimp only at hwalk hc ⊢
  obtain ⟨w, hw⟩ := hwalk.suffix
  rw [if_pos hc]
  cases hq : q.rest with
  | nil => exact absurd (hc.symm.trans (Lex.peek_nil hq)) (by decide)
  | cons c after =>
    obtain rfl : c = '"' := (Lex.peek_cons hq).symm.trans hc
    rw [hq] at hw
    refine ⟨w, after, hw.symm, rfl, Lex.slice_append ?_⟩
    have ht : s.advance.rest = t := by rw [Lex.rest_advance, hs]; rfl
    rw [hs, ← ht, ← hw, Lex.rest_advance, hq]
    simp

theorem scanRaw_spec {fuel n m : Nat} {saw saw' : Bool} {t : Text}
    (h : Lex.scanRaw fuel saw n t = (true, saw', m)) :
    ∃ w after, t = w ++ '"' :: '"' :: '"' :: after ∧ m = n + w.length + 3 := by
  induction fuel generalizing saw n t with
  | zero => exact absurd (congrArg Prod.fst h) Bool.false_ne_true
  | succ fuel ih =>
    rw [Lex.scanRaw] at h
    split at h
    · exact absurd (congrArg Prod.fst h) Bool.false_ne_true
    · dsimp only at h
      split at h
      · next hq =>
        obtain ⟨after, rfl⟩ := List.isPrefixOf_iff_prefix.mp hq
        exact ⟨[], after, rfl, (congrArg (fun r => r.2.2) h).symm⟩
      · next hlen _ =>
        obtain ⟨w, after, hw, rfl⟩ := ih h
        cases t with
        | nil => exact absurd (Nat.zero_le 2) hlen
        | cons c t => exact ⟨c :: w, after, congrArg (c :: ·) hw, by rw [List.length_cons]; omega⟩

/-- The text of a raw literal. -/
theorem raw_text {s : Lexer} {t : Text} (hs : s.rest = '"' :: t)
    (hraw : ['"', '"', '"'].isPrefixOf s.rest = true)
    (ht : (Lex.lexString s.advance).1 = .InterpStringLiteral) :
    ∃ w, Lex.slice s (Lex.lexString s.advance).2 = ['"', '"', '"'] ++ w ++ ['"', '"', '"'] := by
  rw [Lex.lexString, if_pos ((raw_iff hs).mpr hraw)] at ht ⊢
  dsimp only at ht ⊢
  generalize hscan : Lex.scanRaw s.advance.advance.advance.rest.length false 0
    s.advance.advance.advance.rest = r at ht ⊢
  rcases r with ⟨closed, saw, n⟩
  dsimp only at ht ⊢
  cases closed with
  | false => cases ht
  | true =>
    obtain ⟨w, after, hw, rfl⟩ := scanRaw_spec hscan
    obtain ⟨rest, hrest⟩ := List.isPrefixOf_iff_prefix.mp hraw
    refine ⟨w, Lex.slice_append ?_⟩
    have hbody : s.advance.advance.advance.rest = rest := by
      rw [Lex.rest_advance, Lex.rest_advance, Lex.rest_advance, ← hrest]
      rfl
    rw [Lex.rest_advanceBy, hw, ← hrest, ← hbody, hw]
    simp

theorem isRawText_of_raw (w : Text) : isRawText (['"', '"', '"'] ++ w ++ ['"', '"', '"']) = true := by
  simp [isRawText]

theorem isRawText_of_prefix {text rest : Text} (h : text <+: rest)
    (hraw : ¬ ['"', '"', '"'].isPrefixOf rest = true) : isRawText text = false := by
  rw [isRawText, Bool.and_eq_false_iff]
  right
  by_contra hp
  rw [Bool.not_eq_false, List.isPrefixOf_iff_prefix] at hp
  exact hraw (List.isPrefixOf_iff_prefix.mpr (hp.trans h))

theorem length_quotes (text : Text) : (quotes text).length = bodyStart text := by
  rw [quotes, bodyStart]
  split <;> rfl

theorem bodyEnd_eq (text : Text) : bodyEnd text = text.length - bodyStart text := by
  rw [bodyEnd, bodyStart]
  split <;> rfl

/-- The pieces of a literal between its quotes. -/
theorem flatMap_cuts {text w : Text} (h : text = quotes text ++ w ++ quotes text)
    (hc : (cuts text).2 = true) : (cuts text).1.flatMap (Cut.source text) = w := by
  have hlen := congrArg List.length h
  rw [List.length_append, List.length_append, length_quotes] at hlen
  have hend := bodyEnd_eq text
  rw [cuts] at hc ⊢
  rw [flatMap_cutFrom le_rfl (by omega) (by omega) hc, Lex.sliceAt]
  have htake : text.take (bodyEnd text) = quotes text ++ w :=
    calc text.take (bodyEnd text)
        = (quotes text ++ w ++ quotes text).take (quotes text ++ w).length := by
          rw [← h, List.length_append, length_quotes, show bodyEnd text = bodyStart text + w.length
            by omega]
      _ = quotes text ++ w := List.take_left
  rw [htake, ← length_quotes, List.drop_left]

/-- A hole lies between its quotes. -/
theorem mem_holes_cutFrom {text : Text} {e n cs i : Nat} {r : Nat × Nat}
    (h : r ∈ holes (cutFrom text e n cs i).1) : r.2 < e := by
  induction n generalizing cs i with
  | zero => exact absurd h List.not_mem_nil
  | succ n ih =>
    by_cases hie : i + 1 < e
    · by_cases hole : text[i]? = some '$' ∧ text[i + 1]? = some '\x7b'
      · cases hc : findInterpCloseRange text i e with
        | none =>
          rw [cutFrom, if_pos hie, if_pos hole, hc] at h
          exact absurd h List.not_mem_nil
        | some close =>
          rw [cutFrom_hole hie hole hc, holes_append, holes_chunk, holes_hole, List.nil_append,
            List.mem_cons] at h
          rcases h with rfl | h
          · exact (findInterpCloseRange_spec hc).2.1
          · exact ih h
      · rw [cutFrom, if_pos hie, if_neg hole] at h
        exact ih h
    · rw [cutFrom, if_neg hie] at h
      rw [holes_chunk] at h
      exact absurd h List.not_mem_nil

/-- The lexer that is bound to a hole reads the text of the hole. -/
theorem cursor_bindTo {text : Text} {p : Parser} {tokStart a b : Nat}
    (h : (p.lexer.source.drop tokStart).take text.length = text) (hb : b ≤ text.length) :
    (p.bindTo (tokStart + a) (tokStart + b)).lexer.cursor.rest = Lex.sliceAt text a b := by
  change (p.lexer.source.take (tokStart + b)).drop (tokStart + a) = _
  rw [Lex.sliceAt, ← h, List.take_take, Nat.min_eq_left hb, ← List.drop_drop, List.drop_take,
    Nat.add_sub_cancel_left]

/-! ## Interpolated literals -/

/-- How a literal at a cursor is cut up and parsed. -/
structure SplitsAsLexed (s : Lexer) (text : Text) : Prop where
  closes : isRawText text = false → (cuts text).2 = true ∧
    ∀ h ∈ lexedHoles s.advance.rest.length s.advance,
      findInterpCloseRange text (s.rest.length - h.1.rest.length) (bodyEnd text) =
        some (holeRange s.rest.length h).2
  holes_eq : isRawText text = false → holes (cuts text).1 =
    (lexedHoles s.advance.rest.length s.advance).map (holeRange s.rest.length)
  pieces : (cuts text).2 = true →
    quotes text ++ (cuts text).1.flatMap (Cut.source text) ++ quotes text = text
  windows : ∀ (p : Parser) (tokStart : Nat),
    (p.lexer.source.drop tokStart).take text.length = text → ∀ r ∈ holes (cuts text).1,
      (p.bindTo (tokStart + r.1) (tokStart + r.2)).lexer.cursor.rest = Lex.sliceAt text r.1 r.2
  place : ∀ (g : Grammar) (calls tokStart : Nat) (p p' : Parser) (node : ASTNode),
    Prog.Runs (Answers g calls) p (parseInterpolation text tokStart) p' node → p'.place = p.place
  unclosed : (cuts text).2 = false →
    ∀ (g : Grammar) (calls tokStart : Nat) (p p' : Parser) (node : ASTNode),
      Prog.Runs (Answers g calls) p (parseInterpolation text tokStart) p' node →
        node = .literal "string" "\"\"" ∧ p'.diagnostics.getLast? =
          some ⟨"unterminated interpolation: missing closing brace", p.currentToken.token.line,
            p.currentToken.token.col, "", ""⟩

/-- A literal in its quotes is cut up and parsed as it should be if it has the holes of the lexer. -/
theorem splits_of_quotes {s : Lexer} {text w : Text} (h : text = quotes text ++ w ++ quotes text)
    (hagree : isRawText text = false → ∃ tail, bodyEnd text + tail.length = s.rest.length ∧
      Agrees text tail (bodyEnd text) (cuts text) (lexedHoles s.advance.rest.length s.advance)) :
    SplitsAsLexed s text := by
  constructor
  case closes =>
    intro hr
    obtain ⟨tail, hlen, hclosed, -, hranges⟩ := hagree hr
    rw [hlen] at hranges
    exact ⟨hclosed, hranges⟩
  case holes_eq =>
    intro hr
    obtain ⟨tail, hlen, -, hholes, -⟩ := hagree hr
    rw [hlen] at hholes
    exact hholes
  case pieces =>
    intro hc
    rw [flatMap_cuts h hc, ← h]
  case windows =>
    intro p tokStart hp r hr
    have hlt := mem_holes_cutFrom hr
    rw [bodyEnd_eq] at hlt
    exact cursor_bindTo hp (by omega)
  case place =>
    intro g calls tokStart p p' node hrun
    exact (parseInterpolation_restores text tokStart).runs hrun
  case unclosed =>
    intro hc g calls tokStart p p' node hrun
    exact (parseInterpolation_unclosed tokStart hc).runs hrun

/-- **An interpolated literal is split as it was lexed**, unless a hole of a raw literal is not closed
in front of its quotes. -/
theorem interpolation_as_lexed {l : Lexer} (ht : (Lex.nextToken l).1.tag = .InterpStringLiteral)
    (hc : closedLiteral (Lex.skipWhitespaceAndComments l) = true) :
    SplitsAsLexed (Lex.skipWhitespaceAndComments l) (Lex.nextToken l).1.text := by
  obtain ⟨t, hs, htag, htext⟩ := Lex.nextToken_interp ht
  rw [htext]
  rw [closedLiteral, Bool.or_eq_true, decide_eq_true_eq] at hc
  generalize Lex.skipWhitespaceAndComments l = s at *
  by_cases hraw : ['"', '"', '"'].isPrefixOf s.rest = true
  · obtain ⟨w, hw⟩ := raw_text hs hraw htag
    have hr : isRawText (Lex.slice s (Lex.lexString s.advance).2) = true := by
      rw [hw]
      exact isRawText_of_raw w
    refine splits_of_quotes (w := w) ?_ fun h => absurd (hr.symm.trans h) (by decide)
    rw [quotes, if_pos hr]
    exact hw
  · obtain ⟨w, after, hadv, hscan, hw⟩ := ordinary_text hs hraw (hc.resolve_left hraw)
    have hpre : Lex.slice s (Lex.lexString s.advance).2 <+: s.rest := List.take_prefix _ _
    have hr := isRawText_of_prefix hpre hraw
    rw [hw] at hr ⊢
    have hstart : bodyStart ('"' :: w ++ ['"']) = 1 := by rw [bodyStart, hr]; rfl
    have hend : bodyEnd ('"' :: w ++ ['"']) = w.length + 1 := by
      rw [bodyEnd_eq, hstart]
      simp
    have ht : s.advance.rest = t := by rw [Lex.rest_advance, hs]; rfl
    refine splits_of_quotes (w := w) ?_ fun _ => ⟨'"' :: after, ?_, ?_⟩
    · rw [quotes, hr]
      rfl
    · rw [hend, hs, ← ht, hadv]
      simp only [List.length_cons, List.length_append]
      omega
    · rw [cuts, hstart, hend]
      refine agrees_cutFrom (by simp) rfl ?_ (by omega) le_rfl ?_ hscan
      · rw [hadv]
        simp
      · simp only [List.length_cons, List.length_append]
        omega

/-- A literal with a hole. -/
theorem interpolation_one_hole :
    SplitsAsLexed (Lex.initLexer ['"', 'a', '$', '\x7b', 'b', '\x7d', '"'])
      ['"', 'a', '$', '\x7b', 'b', '\x7d', '"'] :=
  interpolation_as_lexed (l := Lex.initLexer ['"', 'a', '$', '\x7b', 'b', '\x7d', '"'])
    (by decide) (by decide)

/-- A raw literal whose hole is not closed is cut into nothing. -/
theorem raw_hole_unclosed : ¬ ∀ l : Lexer, (Lex.nextToken l).1.tag = .InterpStringLiteral →
    closedLiteral (Lex.skipWhitespaceAndComments l) = true →
      quotes (Lex.nextToken l).1.text ++
        (cuts (Lex.nextToken l).1.text).1.flatMap (Cut.source (Lex.nextToken l).1.text) ++
          quotes (Lex.nextToken l).1.text = (Lex.nextToken l).1.text := by
  intro h
  have hraw := h (Lex.initLexer ['"', '"', '"', '$', '\x7b', 'a', '"', '"', '"'])
    (by decide) (by decide)
  exact absurd hraw (by decide)

end Front
