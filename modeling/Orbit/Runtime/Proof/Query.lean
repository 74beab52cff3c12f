import Mathlib.Data.List.TakeWhile
import Orbit.Runtime.Query

/-!
# Queries are read back

Of every spelling of a list of pairs, `orbit_http_query_get_all` reads the values of a key in order
and `orbit_http_query_get` the first of them, and of no text do they read behind its end
(`query_read_back`). What the decoder reads is the text with its escapes read (`decodeFrom_eq`).
-/

namespace Runtime.Query

open Http (Text nul cString)
open Lib.Json (hexValue)
open Lib.Percent (plusToSpace decode Spells)

/-! ## The decoders -/

theorem cString_of_nulFree {s : Text} (h : nul ∉ s) : cString s = s := by
  refine List.takeWhile_eq_self_iff.mpr fun c hc => ?_
  simpa using fun heq : c = nul => h (heq ▸ hc)

/-- The loop reads the escapes of the text from `i` on. -/
theorem decodeFrom_eq (s : Text) (fuel i : Nat) (h : s.length < fuel + i) :
    decodeFrom s fuel i = some (decode (s.drop i)) := by
  induction fuel generalizing i with
  | zero =>
    rw [decodeFrom, List.drop_eq_nil_of_le (by omega)]
    rfl
  | succ fuel ih =>
    rw [decodeFrom]
    by_cases hi : i < s.length
    · have hdrop : s.drop i = s[i] :: s.drop (i + 1) := List.drop_eq_getElem_cons hi
      rw [if_pos hi, List.getElem?_eq_getElem hi, hdrop]
      simp only [Option.bind_eq_bind, Option.bind_some]
      have hnext := ih (i + 1) (by omega)
      by_cases hc : s[i] = '%'
      · by_cases hroom : i + 2 < s.length
        · have hdrop1 : s.drop (i + 1) = s[i + 1] :: s.drop (i + 2) :=
            List.drop_eq_getElem_cons (by omega)
          have hdrop2 : s.drop (i + 2) = s[i + 2] :: s.drop (i + 3) :=
            List.drop_eq_getElem_cons hroom
          rw [if_pos ⟨hc, hroom⟩, List.getElem?_eq_getElem (by omega : i + 1 < s.length),
            List.getElem?_eq_getElem hroom, hnext, ih (i + 3) (by omega)]
          simp only [Option.bind_some, Option.map_some]
          rw [hdrop1, hdrop2, hc]
          cases ha : hexValue s[i + 1] with
          | none => rw [Lib.Percent.decode_no_escape (Or.inl ha)]
          | some x =>
            cases hb : hexValue s[i + 2] with
            | none => rw [Lib.Percent.decode_no_escape (Or.inr hb)]
            | some y => rw [Lib.Percent.decode_escape ha hb]
        · rw [if_neg fun hand => hroom hand.2, hnext, hc, Option.map_some,
            Lib.Percent.decode_short (by rw [List.length_drop]; omega)]
      · rw [if_neg fun hand => hc hand.1, hnext, Option.map_some,
          Lib.Percent.decode_cons_of_ne hc]
    · rw [if_neg hi, List.drop_eq_nil_of_le (by omega)]
      rfl

theorem orbitUrlDecode_eq (s : Text) :
    orbitUrlDecode s = some (cString (decode (cString s))) := by
  rw [orbitUrlDecode, decodeFrom_eq _ _ _ (by omega), List.drop_zero, Option.map_some]

theorem mapM_of_eq_some {α β : Type} {f : α → Option β} {g : α → β} {l : List α}
    (h : ∀ a ∈ l, f a = some (g a)) : l.mapM f = some (l.map g) := by
  induction l with
  | nil => rfl
  | cons a l ih =>
    rw [List.mapM_cons, h a List.mem_cons_self, ih fun b hb => h b (List.mem_cons_of_mem _ hb)]
    rfl

/-- The text that a span of the query stands for. -/
def decoded (s : Text) : Text := cString (decode (cString (s.map plusToSpace)))

theorem orbitUrlDecodeQueryN_eq {s : Text} {n : Nat} (h : n ≤ s.length) :
    orbitUrlDecodeQueryN s n = some (decoded (s.take n)) := by
  have hread : ∀ i ∈ List.range n, s[i]?.map plusToSpace = some (plusToSpace (s.getD i nul)) := by
    intro i hi
    have hlt : i < s.length := by
      have := List.mem_range.mp hi
      omega
    rw [List.getD_eq_getElem?_getD, List.getElem?_eq_getElem hlt]
    rfl
  have hcopy : (List.range n).map (fun i => plusToSpace (s.getD i nul)) =
      (s.take n).map plusToSpace := by
    refine List.ext_getElem (by simp [h]) fun i h1 h2 => ?_
    have hlt : i < s.length := by
      simp only [List.length_map, List.length_range] at h1
      omega
    simp [List.getElem?_eq_getElem hlt]
  rw [orbitUrlDecodeQueryN, mapM_of_eq_some hread, hcopy]
  exact orbitUrlDecode_eq _

theorem decoded_spells {reserved : List Char} {s t : Text} (h : Spells reserved s t)
    (hplus : '+' ∈ reserved) (hpercent : '%' ∈ reserved) (hnul : nul ∈ reserved) (hs : nul ∉ s) :
    decoded t = s := by
  have ht : nul ∉ t.map plusToSpace := by
    rw [List.mem_map]
    rintro ⟨c, hc, heq⟩
    by_cases hp : c = '+'
    · rw [hp] at heq
      exact absurd heq (by decide)
    · rw [Lib.Percent.plusToSpace_of_ne hp] at heq
      refine Lib.Percent.not_mem_spelling h hnul ?_ ?_ ?_ (heq ▸ hc) <;> decide
  rw [decoded, cString_of_nulFree ht, Lib.Percent.decode_spells h hplus hpercent,
    cString_of_nulFree hs]

/-! ## Pairs -/

theorem offsetOf_append {c : Char} {s tail : Text} (hs : c ∉ s)
    (ht : ∀ d, tail.head? = some d → d = c) : offsetOf c (s ++ tail) = s.length := by
  have hall : ∀ d ∈ s, (decide (d ≠ c)) = true := fun d hd =>
    decide_eq_true fun heq => hs (heq ▸ hd)
  rw [offsetOf, List.takeWhile_append_of_pos hall]
  cases tail with
  | nil => simp
  | cons d tail => simp [ht d rfl]

theorem offsetOf_le (c : Char) (q : Text) : offsetOf c q ≤ q.length :=
  (List.takeWhile_prefix _).length_le

/-- What stands behind a pair: nothing, or an ampersand. -/
def EndsPair (tail : Text) : Prop := ∀ d, tail.head? = some d → d = '&'

/-- The spans that are read of a pair. -/
structure Spans (q k v tail : Text) : Prop where
  ne : q ≠ []
  lt : offsetOf '=' q < offsetOf '&' q
  key : orbitUrlDecodeQueryN q (offsetOf '=' q) = some (decoded k)
  value : orbitUrlDecodeQueryN (q.drop (offsetOf '=' q + 1))
    (offsetOf '&' q - (offsetOf '=' q + 1)) = some (decoded v)
  rest : q.drop (offsetOf '&' q) = tail

theorem spans {k v tail : Text} (hk : '&' ∉ k) (hke : '=' ∉ k) (hv : '&' ∉ v)
    (htail : EndsPair tail) : Spans (k ++ '=' :: v ++ tail) k v tail := by
  have hstop : offsetOf '&' (k ++ '=' :: v ++ tail) = (k ++ '=' :: v).length := by
    refine offsetOf_append ?_ htail
    simp [hk, hv]
  have heq : offsetOf '=' (k ++ '=' :: v ++ tail) = k.length := by
    rw [List.append_assoc]
    exact offsetOf_append hke fun d hd => by simpa using hd.symm
  have hlen : (k ++ '=' :: v).length = k.length + 1 + v.length := by
    rw [List.length_append, List.length_cons]
    omega
  have hdrop : (k ++ '=' :: v ++ tail).drop (k.length + 1) = v ++ tail := by
    rw [← List.drop_drop, List.append_assoc, List.drop_left]
    rfl
  refine ⟨by simp, ?_, ?_, ?_, ?_⟩
  · rw [hstop, heq, hlen]
    omega
  · rw [heq, orbitUrlDecodeQueryN_eq (by rw [List.length_append, hlen]; omega), List.append_assoc,
      List.take_left]
  · rw [heq, hstop, hdrop, hlen, show k.length + 1 + v.length - (k.length + 1) = v.length by omega,
      orbitUrlDecodeQueryN_eq (by simp), List.take_left]
  · rw [hstop, List.drop_left]

theorem queryGetAllFrom_pair {q k v tail : Text} (h : Spans q k v tail) (key : Text) (fuel : Nat) :
    queryGetAllFrom key (fuel + 1) q =
      (if tail = [] then some [] else queryGetAllFrom key fuel tail.tail).map
        ((if decoded k = key then [decoded v] else []) ++ ·) := by
  rw [queryGetAllFrom]
  simp only [h.ne, if_false, h.lt, if_true, h.key, h.value, h.rest, Option.bind_eq_bind,
    Option.bind_some]
  by_cases hkey : decoded k = key
  · cases tail <;> simp [hkey]
  · cases tail <;> simp [hkey]

/-! ## Queries -/

theorem valuesOf_cons (p : Text × Text) (ps : List (Text × Text)) (key : Text) :
    valuesOf (p :: ps) key = (if p.1 = key then [p.2] else []) ++ valuesOf ps key := by
  by_cases h : p.1 = key <;> simp [valuesOf, h]

/-- A pair is read as it is spelled. -/
theorem spans_of_spells {p : Text × Text} {t tail : Text} (h : SpellsPair p t)
    (hnul : nul ∉ p.1 ∧ nul ∉ p.2) (htail : EndsPair tail) :
    ∃ k v, Spans (t ++ tail) k v tail ∧ decoded k = p.1 ∧ decoded v = p.2 := by
  obtain ⟨k, v, hk, hv, rfl⟩ := h
  have hkamp : '&' ∉ k := by refine Lib.Percent.not_mem_spelling hk ?_ ?_ ?_ ?_ <;> decide
  have hkeq : '=' ∉ k := by refine Lib.Percent.not_mem_spelling hk ?_ ?_ ?_ ?_ <;> decide
  have hvamp : '&' ∉ v := by refine Lib.Percent.not_mem_spelling hv ?_ ?_ ?_ ?_ <;> decide
  refine ⟨k, v, spans hkamp hkeq hvamp htail, ?_, ?_⟩
  · refine decoded_spells hk ?_ ?_ ?_ hnul.1 <;> decide
  · refine decoded_spells hv ?_ ?_ ?_ hnul.2 <;> decide

theorem queryGetAllFrom_spells {pairs : List (Text × Text)} {query : Text}
    (h : SpellsQuery pairs query) (hnul : NulFree pairs) (key : Text) (fuel : Nat)
    (hfuel : query.length < fuel) : queryGetAllFrom key fuel query = some (valuesOf pairs key) := by
  induction h generalizing fuel with
  | nil =>
    cases fuel with
    | zero => rfl
    | succ fuel => rfl
  | @one p t ht =>
    obtain ⟨fuel, rfl⟩ : ∃ n, fuel = n + 1 := ⟨fuel - 1, by omega⟩
    have htail : EndsPair [] := fun d hd => by cases hd
    obtain ⟨k, v, hspans, hk, hv⟩ := spans_of_spells ht (hnul p List.mem_cons_self) htail
    rw [List.append_nil] at hspans
    rw [queryGetAllFrom_pair hspans, hk, hv, valuesOf_cons]
    rfl
  | @cons p t ps query ht _ _ ih =>
    obtain ⟨fuel, rfl⟩ : ∃ n, fuel = n + 1 := ⟨fuel - 1, by omega⟩
    have htail : EndsPair ('&' :: query) := fun d hd => by simpa using hd.symm
    obtain ⟨k, v, hspans, hk, hv⟩ := spans_of_spells ht (hnul p List.mem_cons_self) htail
    rw [List.length_append, List.length_cons] at hfuel
    rw [queryGetAllFrom_pair hspans, hk, hv, valuesOf_cons, if_neg (List.cons_ne_nil _ _),
      List.tail_cons, ih (fun p' hp => hnul p' (List.mem_cons_of_mem _ hp)) fuel (by omega)]
    rfl

/-! ## Every text -/

theorem queryGetAllFrom_isSome (key : Text) (fuel : Nat) (q : Text) :
    (queryGetAllFrom key fuel q).isSome := by
  induction fuel generalizing q with
  | zero => rfl
  | succ fuel ih =>
    have hstop := offsetOf_le '&' q
    rw [queryGetAllFrom]
    split
    · rfl
    · split
      · next hlt =>
        rw [orbitUrlDecodeQueryN_eq (by omega)]
        simp only [Option.bind_eq_bind, Option.bind_some]
        split
        · rw [orbitUrlDecodeQueryN_eq (by rw [List.length_drop]; omega), Option.bind_some,
            Option.isSome_map]
          split
          · rfl
          · exact ih _
        · split
          · rfl
          · exact ih _
      · split
        · rfl
        · exact ih _

/-- The first value is the head of all of them. -/
theorem queryGetFrom_eq (key : Text) (fuel : Nat) (q : Text) :
    queryGetFrom key fuel q = (queryGetAllFrom key fuel q).map fun values => values.headD [] := by
  induction fuel generalizing q with
  | zero => rfl
  | succ fuel ih =>
    have hstop := offsetOf_le '&' q
    have hall := queryGetAllFrom_isSome key (fuel + 1) q
    rw [queryGetFrom]
    rw [queryGetAllFrom] at hall ⊢
    by_cases hq : q = []
    · simp [hq]
    · by_cases hlt : offsetOf '=' q < offsetOf '&' q
      · have hkey := orbitUrlDecodeQueryN_eq (show offsetOf '=' q ≤ q.length by omega)
        have hvalue := orbitUrlDecodeQueryN_eq (s := q.drop (offsetOf '=' q + 1))
          (n := offsetOf '&' q - (offsetOf '=' q + 1)) (by rw [List.length_drop]; omega)
        simp only [if_neg hq, if_pos hlt, hkey, hvalue, Option.bind_eq_bind,
          Option.bind_some] at hall ⊢
        split
        · next hfound =>
          rw [if_pos hfound, Option.isSome_map] at hall
          obtain ⟨rest, hrest⟩ := Option.isSome_iff_exists.mp hall
          rw [hrest]
          rfl
        · cases q.drop (offsetOf '&' q) with
          | nil => rfl
          | cons d rest => exact ih rest
      · rw [if_neg hq, if_neg hlt, if_neg hq, if_neg hlt]
        cases q.drop (offsetOf '&' q) with
        | nil => rfl
        | cons d rest => exact ih rest

/-- **Queries are read back**, however they are spelled, and no text is read behind its end. -/
theorem query_read_back :
    (∀ pairs query, NulFree pairs → SpellsQuery pairs query → ∀ key,
      orbitHttpQueryGetAll query key = some (valuesOf pairs key) ∧
        orbitHttpQueryGet query key = some ((valuesOf pairs key).headD [])) ∧
    (∀ query key, (orbitHttpQueryGetAll query key).isSome ∧ (orbitHttpQueryGet query key).isSome) ∧
    ∀ text, (orbitUrlDecode text).isSome := by
  refine ⟨fun pairs query hnul h key => ⟨?_, ?_⟩, fun query key => ⟨?_, ?_⟩, fun text => ?_⟩
  · exact queryGetAllFrom_spells h hnul key _ (Nat.lt_succ_self _)
  · rw [orbitHttpQueryGet, queryGetFrom_eq,
      queryGetAllFrom_spells h hnul key _ (Nat.lt_succ_self _), Option.map_some]
  · exact queryGetAllFrom_isSome key _ query
  · rw [orbitHttpQueryGet, queryGetFrom_eq, Option.isSome_map]
    exact queryGetAllFrom_isSome key _ query
  · rw [orbitUrlDecode_eq]
    rfl

/-- `t=a+&%74=` has the values `a ` and the empty one under `t`. -/
theorem query_read_back_twice :
    orbitHttpQueryGetAll ['t', '=', 'a', '+', '&', '%', '7', '4', '='] ['t'] =
        some [['a', ' '], []] ∧
      orbitHttpQueryGet ['t', '=', 'a', '+', '&', '%', '7', '4', '='] ['t'] = some ['a', ' '] := by
  refine query_read_back.1 [(['t'], ['a', ' ']), (['t'], [])] _ ?_ ?_ ['t']
  · rintro p (_ | ⟨_, _ | ⟨_, hp⟩⟩)
    · decide
    · decide
    · cases hp
  · have hfirst : SpellsPair (['t'], ['a', ' ']) ['t', '=', 'a', '+'] :=
      ⟨['t'], ['a', '+'], .literal (by decide) .nil, .literal (by decide) (.plus .nil), rfl⟩
    have hsecond : SpellsPair (['t'], []) ['%', '7', '4', '='] := by
      refine ⟨['%', '7', '4'], [], ?_, .nil, rfl⟩
      exact Spells.escape (x := 7) (y := 4) (by decide) (by decide) .nil
    exact SpellsQuery.cons hfirst (List.cons_ne_nil _ _) (.one hsecond)

end Runtime.Query
