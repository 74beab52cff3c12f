import Mathlib.Data.List.TakeWhile
import Orbit.Runtime.Upload

/-!
# What an upload stores

`walk_formBody` runs the loop over a whole body: `indexOf_delimiter` finds a delimiter behind a text
of whole lines, `indexOf_headerEnd` the end of header lines, and `indexOf_contentEnd` the end of a
content. Behind a part that is not the field the loop goes on past the delimiter of the next part,
so that it looks at each other part only; `storesNamed_iff` says when that stores the named part.
-/

namespace Runtime.Upload

open Http (Text)
open Lib.Find (indexOf indexOf_hit indexOf_pass indexOf_skip indexOf_behind indexOf_behind_stop)

/-! ## Delimiters -/

theorem not_mem_boundary {headers boundary : Text} (h : boundaryOf headers = some boundary) :
    '\r' ∉ boundary ∧ '\n' ∉ boundary := by
  simp only [boundaryOf, Option.bind_eq_bind, Option.bind_eq_some_iff] at h
  obtain ⟨ct, -, bpos, -, h⟩ := h
  split at h
  · cases h
  · rw [Option.some.injEq] at h
    subst h
    constructor <;> intro hmem <;> simpa using List.mem_takeWhile_imp hmem

/-- What a delimiter is found behind: lines without one. -/
structure Plain (boundary t : Text) : Prop where
  none_inside : ¬ dashes boundary <:+: t
  ends_line : t = [] ∨ t.getLast? = some '\n'

variable {boundary : Text}

theorem Plain.of_startsLine {t : Text} (hinside : ¬ dashes boundary <:+: t) (h : StartsLine t) :
    Plain boundary t := by
  refine ⟨hinside, h.imp_right ?_⟩
  rintro ⟨s, rfl⟩
  simp [crlf]

theorem Plain.of_part {p : Part} (hinside : ¬ dashes boundary <:+: p.text) :
    Plain boundary p.text :=
  ⟨hinside, Or.inr (List.getLast?_append_of_ne_nil _ (by decide : crlf ≠ []))⟩

theorem indexOf_delimiter (hb : '\n' ∉ boundary) {t : Text} (h : Plain boundary t) (u : Text) :
    indexOf (dashes boundary) (t ++ (dashes boundary ++ u)) = some t.length :=
  indexOf_behind_stop (by simpa [dashes] using hb) h.none_inside h.ends_line u

theorem joinLines_cons (line : Text) (lines : List Text) :
    ∃ rest, joinLines (line :: lines) = line ++ rest := by
  cases lines with
  | nil => exact ⟨[], (List.append_nil line).symm⟩
  | cons next lines => exact ⟨crlf ++ joinLines (next :: lines), List.append_assoc _ _ _⟩

/-- Header lines end at their empty line. -/
theorem indexOf_headerEnd {lines : List Text}
    (h : ∀ line ∈ lines, line ≠ [] ∧ '\r' ∉ line ∧ '\n' ∉ line) (t : Text) :
    indexOf (crlf ++ crlf) (joinLines lines ++ (crlf ++ crlf ++ t)) =
      some (joinLines lines).length := by
  induction lines with
  | nil => exact indexOf_hit (s := []) (List.not_mem_nil) (by simp)
  | cons line lines ih =>
    have hline := h line List.mem_cons_self
    cases lines with
    | nil => exact indexOf_hit hline.2.1 (by simp)
    | cons next lines =>
      obtain ⟨hne, hr, -⟩ := h next (List.mem_cons_of_mem _ List.mem_cons_self)
      -- the line end is not followed by another one, because the next line has a first character
      have hmiss : ¬ ['\n', '\r', '\n'] <+:
          '\n' :: (joinLines (next :: lines) ++ (crlf ++ crlf ++ t)) := by
        obtain ⟨rest, hrest⟩ := joinLines_cons next lines
        obtain ⟨c, cs, rfl⟩ := List.exists_cons_of_ne_nil hne
        rw [hrest, List.cons_append, List.cons_append, List.prefix_cons_inj, List.cons_prefix_cons]
        exact fun hc => hr (hc.1 ▸ List.mem_cons_self)
      have hrest := ih fun l hl => h l (List.mem_cons_of_mem _ hl)
      calc indexOf (crlf ++ crlf) (joinLines (line :: next :: lines) ++ (crlf ++ crlf ++ t))
          = indexOf (crlf ++ crlf)
              (line ++ '\r' :: (['\n'] ++ (joinLines (next :: lines) ++ (crlf ++ crlf ++ t)))) := by
            simp [joinLines, crlf]
        _ = (indexOf (crlf ++ crlf)
              (['\n'] ++ (joinLines (next :: lines) ++ (crlf ++ crlf ++ t)))).map
                (· + (line.length + 1)) := indexOf_pass hline.2.1 hmiss
        _ = ((indexOf (crlf ++ crlf) (joinLines (next :: lines) ++ (crlf ++ crlf ++ t))).map
              (· + 1 : Nat → Nat)).map (· + (line.length + 1)) :=
            congrArg _ (indexOf_skip (q := '\r') (s := ['\n']) (by decide) _)
        _ = some (joinLines (line :: next :: lines)).length := by
            rw [hrest]
            simp only [joinLines, crlf, Option.map_some, Option.some.injEq, List.length_append,
              List.length_cons, List.length_nil]
            omega

theorem indexOf_contentEnd (hb : '\r' ∉ boundary) {content : Text}
    (h : ¬ crlf ++ dashes boundary <:+: content) (t : Text) :
    indexOf (crlf ++ dashes boundary) (content ++ (crlf ++ dashes boundary ++ t)) =
      some content.length :=
  indexOf_behind (q := '\r') (n := '\n' :: dashes boundary) (by simpa [dashes] using hb) h t

theorem indexOf_eq_none {needle t : Text} (h : ¬ needle <:+: t) : indexOf needle t = none := by
  cases hp : indexOf needle t with
  | none => rfl
  | some k =>
    exact absurd ((Lib.Find.indexOf_some hp).1.isInfix.trans (List.drop_suffix k t).isInfix) h

/-! ## The loop -/

variable {opens : Text → Bool} {now : Nat} {epilogue field dest : Text}

/-- What a part that is taken for the field saves. -/
def Part.saved (opens : Text → Bool) (now : Nat) (dest : Text) (p : Part) : Option (Text × Text) :=
  if opens (savedPath now dest (joinLines p.lines)) then
    some (savedPath now dest (joinLines p.lines), p.content)
  else none

/-- The loop stops at the end of the form. -/
theorem walk_end (hb : '\n' ∉ boundary) {t : Text} (ht : Plain boundary t) (fuel : Nat) :
    walk opens now boundary field dest (fuel + 1)
      (t ++ (dashes boundary ++ '-' :: '-' :: epilogue)) = none := by
  simp [walk, indexOf_delimiter hb ht]

theorem drop_past (a b c : Text) : (a ++ (b ++ c)).drop (a.length + b.length) = c := by
  rw [← List.append_assoc, ← List.length_append, List.drop_left]

/-- One round: the part behind the delimiter, and then what is behind the next delimiter. -/
theorem walk_part (hr : '\r' ∉ boundary) (hn : '\n' ∉ boundary) {t : Text} (ht : Plain boundary t)
    {p : Part} (hp : p.WellFormed boundary) (u : Text) (fuel : Nat) :
    walk opens now boundary field dest (fuel + 1)
        (t ++ (dashes boundary ++ (p.text ++ dashes boundary ++ u))) =
      if looksNamed field (joinLines p.lines) then p.saved opens now dest
      else walk opens now boundary field dest fuel u := by
  have htext : p.text ++ dashes boundary ++ u =
      crlf ++ (joinLines p.lines ++ (crlf ++ crlf ++
        (p.content ++ (crlf ++ dashes boundary ++ u)))) := by
    simp [Part.text]
  have hdelimiter := indexOf_delimiter hn ht (p.text ++ dashes boundary ++ u)
  have hhead := indexOf_headerEnd hp.lines (p.content ++ (crlf ++ dashes boundary ++ u))
  have hcontent := indexOf_contentEnd hr hp.content u
  have hlines : (joinLines p.lines ++ (crlf ++ crlf ++
      (p.content ++ (crlf ++ dashes boundary ++ u)))).drop ((joinLines p.lines).length + 4) =
      p.content ++ (crlf ++ dashes boundary ++ u) := drop_past _ (crlf ++ crlf) _
  have hopen : ¬ ['-', '-'] <+: p.text ++ dashes boundary ++ u := by simp [htext, crlf]
  have hline : crlf <+: p.text ++ dashes boundary ++ u := by simp [htext]
  have hdrop : (p.text ++ dashes boundary ++ u).drop 2 = joinLines p.lines ++ (crlf ++ crlf ++
      (p.content ++ (crlf ++ dashes boundary ++ u))) := by
    rw [htext]
    rfl
  rw [walk]
  simp only [hdelimiter, Option.bind_eq_bind, Option.bind_some, drop_past, if_neg hopen,
    if_pos hline, hdrop, hhead, hlines, hcontent, List.take_left, Part.saved]

theorem walk_absent {t : Text} (h : ¬ dashes boundary <:+: t) (fuel : Nat) :
    walk opens now boundary field dest fuel t = none := by
  cases fuel with
  | zero => rfl
  | succ fuel => simp [walk, indexOf_eq_none h]

/-- **The loop looks at each other part**, and saves the first that it takes for the field. -/
theorem walk_form (hr : '\r' ∉ boundary) (hn : '\n' ∉ boundary) {parts : List Part}
    (hparts : ∀ p ∈ parts, p.WellFormed boundary)
    (hstray : NoStray boundary epilogue field parts) {t : Text} (ht : Plain boundary t) {fuel : Nat}
    (hfuel : parts.length < fuel) :
    walk opens now boundary field dest fuel
        (t ++ (dashes boundary ++ formTail boundary epilogue parts)) =
      ((everyOther parts).find? fun p => looksNamed field (joinLines p.lines)).bind
        (Part.saved opens now dest) := by
  obtain ⟨fuel, rfl⟩ := Nat.exists_eq_add_one.mpr (Nat.zero_lt_of_lt hfuel)
  induction parts using everyOther.induct generalizing t fuel with
  | case1 => exact walk_end hn ht fuel
  | case2 p =>
    rw [formTail, walk_part hr hn ht (hparts p List.mem_cons_self), everyOther]
    by_cases hp : looksNamed field (joinLines p.lines) = true
    · simp [hp]
    · rw [if_neg hp, formTail, walk_absent (hstray.resolve_left hp)]
      simp [hp]
  | case3 p q parts ih =>
    rw [formTail, walk_part hr hn ht (hparts p List.mem_cons_self), everyOther]
    by_cases hp : looksNamed field (joinLines p.lines) = true
    · simp [hp]
    · obtain ⟨hq, hrest⟩ := hstray.resolve_left hp
      simp only [List.length_cons] at hfuel
      obtain ⟨fuel, rfl⟩ : ∃ k, fuel = k + 1 := ⟨fuel - 1, by omega⟩
      rw [if_neg hp, List.find?_cons, Bool.eq_false_of_not_eq_true hp, formTail, List.append_assoc]
      exact ih (fun p hp => hparts p (List.mem_cons_of_mem _ (List.mem_cons_of_mem _ hp))) hrest
        (Plain.of_part hq) fuel (by omega)

theorem length_le_formTail (boundary epilogue : Text) (parts : List Part) :
    parts.length ≤ (formTail boundary epilogue parts).length := by
  induction parts with
  | nil => simp
  | cons p parts ih =>
    simp only [formTail, Part.text, crlf, List.length_append, List.length_cons]
    omega

/-! ## Requests -/

variable {req : Request} {preamble : Text} {parts : List Part}

/-- **What is saved of a form.** -/
theorem orbitFileUploadSave_eq (h : Carries req field boundary preamble epilogue parts) :
    orbitFileUploadSave opens now req field dest =
      ((everyOther parts).find? fun p => looksNamed field (joinLines p.lines)).bind
        (Part.saved opens now dest) := by
  obtain ⟨headers, hheaders, hboundary⟩ := Option.bind_eq_some_iff.mp h.headers
  obtain ⟨hr, hn⟩ := not_mem_boundary hboundary
  simp only [orbitFileUploadSave, hheaders, h.body, hboundary, Option.bind_eq_bind,
    Option.bind_some]
  rw [formBody, List.append_assoc]
  refine walk_form hr hn h.wellFormed h.noStray (Plain.of_startsLine h.plain h.starts) ?_
  have := length_le_formTail boundary epilogue parts
  simp only [List.length_append]
  omega

/-- **The named part is stored** of a form exactly when the first of each other part that looks
named is it, or one of its content. -/
theorem storesNamed_iff (opens : Text → Bool) (now : Nat) (dest : Text)
    (h : Carries req field boundary preamble epilogue parts) :
    StoresNamed opens now field dest req parts ↔ FindsNamed opens now field dest parts := by
  rw [StoresNamed, orbitFileUploadSave_eq h, contentOf, FindsNamed]
  cases (everyOther parts).find? fun p => looksNamed field (joinLines p.lines) with
  | none => cases parts.find? fun p => p.name = some field <;> simp
  | some p =>
    by_cases hp : opens (savedPath now dest (joinLines p.lines)) = true
    · cases parts.find? fun p => p.name = some field <;> simp [Part.saved, hp]
    · cases parts.find? fun p => p.name = some field <;> simp [Part.saved, hp]

/-- A part with a name and a content. -/
def namedPart (name content : String) : Part :=
  ⟨[("Content-Disposition: form-data; name=\"" ++ name ++ "\"").toList], content.toList⟩

/-- A form of two parts. -/
def twoParts : List Part := [namedPart "a" "1", namedPart "f" "2"]

def twoPartsRequest : Request :=
  ⟨some "Content-Type: multipart/form-data; boundary=B".toList,
    some (formBody ['B'] [] [] twoParts)⟩

theorem carries_twoParts (field : Text) (h : NoStray ['B'] [] field twoParts) :
    Carries twoPartsRequest field ['B'] [] [] twoParts where
  headers := by decide
  body := rfl
  wellFormed := List.forall_mem_cons.mpr
    ⟨⟨by decide, by decide, by decide⟩, List.forall_mem_singleton.mpr
      ⟨by decide, by decide, by decide⟩⟩
  starts := Or.inl rfl
  plain := by decide
  noStray := h

theorem storesNamed_first :
    StoresNamed (fun _ => true) 0 ['a'] [] twoPartsRequest twoParts := by
  refine (storesNamed_iff _ 0 [] (carries_twoParts ['a'] (Or.inl (by decide)))).mpr ?_
  have htaken : (everyOther twoParts).find? (fun p => looksNamed ['a'] (joinLines p.lines)) =
      some (namedPart "a" "1") := by decide
  have hnamed : twoParts.find? (fun p => p.name = some ['a']) = some (namedPart "a" "1") := by
    decide
  rw [FindsNamed, htaken, hnamed]
  exact ⟨rfl, rfl⟩

theorem storesNamed_second :
    Carries twoPartsRequest ['f'] ['B'] [] [] twoParts ∧
      ¬ StoresNamed (fun _ => true) 0 ['f'] [] twoPartsRequest twoParts :=
  ⟨carries_twoParts ['f'] (Or.inr ⟨by decide, trivial⟩), by
    unfold StoresNamed
    decide⟩

end Runtime.Upload
