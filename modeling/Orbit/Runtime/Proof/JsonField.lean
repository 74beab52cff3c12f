import Mathlib.Data.List.TakeWhile
import Orbit.Lib.Find
import Orbit.Runtime.JsonField
import Orbit.Runtime.Proof.JsonDocument

/-!
# What a search for the name finds

A column gets the value of its member if the first place at which the quoted name stands is the
member (`orbitJsonGetValue_reads`), with the escapes of code units as they are written. So it gets
what the member says exactly when the search comes to it and its value is `Simple`
(`orbitJsonGetValue_iff`).
-/

namespace Runtime.JsonField

open Json (Text jsonWs shortEscape OrbitValue OrbitObject orbitObjectGet Written objectOf Ws
  IsWritten ORBIT_JSON_MAX_DEPTH)
open Lib.Json (skipSpace isSpace escaped)
open Lib.JsonText

/-! ## The helpers -/

theorem jsonWs_eq (t : Text) : jsonWs t = skipSpace t := by
  induction t with
  | nil => rfl
  | cons c t ih =>
    rw [jsonWs, skipSpace, ih]
    refine if_congr ?_ rfl rfl
    simp only [isSpace, Bool.or_eq_true, beq_iff_eq]
    tauto

theorem shortEscape_eq (e : Char) : shortEscape e = escaped e := by
  unfold shortEscape escaped
  split
  all_goals grind

theorem strstr_some {pat t u : Text} (h : strstr pat t = some u) : pat <+: u ∧ u <:+ t := by
  induction t with
  | nil =>
    rw [strstr] at h
    split at h
    next hpat =>
      rw [hpat, ← Option.some.inj h]
      exact ⟨List.nil_prefix, List.suffix_refl _⟩
    next => cases h
  | cons c t ih =>
    rw [strstr] at h
    split at h
    next hpat =>
      rw [← Option.some.inj h]
      exact ⟨List.isPrefixOf_iff_prefix.mp hpat, List.suffix_refl _⟩
    next =>
      obtain ⟨hpre, hsuf⟩ := ih h
      exact ⟨hpre, hsuf.trans (List.suffix_cons _ _)⟩

/-- The pattern stands in front of the place. -/
theorem behind_some {json pat pos : Text} (h : behind json pat = some pos) :
    pat ++ pos <:+ json := by
  rw [behind, Option.map_eq_some_iff] at h
  obtain ⟨u, hu, rfl⟩ := h
  obtain ⟨⟨v, rfl⟩, hsuf⟩ := strstr_some hu
  rwa [List.drop_left' rfl]

/-- In front of a text that ends one row of blanks stands what stands in front of the other. -/
theorem sep_inj {q : Char} {a a' b b' : Text} (hb : q ∉ b) (hb' : q ∉ b')
    (h : a ++ q :: b = a' ++ q :: b') : a = a' ∧ b = b' := by
  have hrev := congrArg List.reverse h
  simp only [List.reverse_append, List.reverse_cons, List.append_assoc,
    List.singleton_append] at hrev
  have hend := (Lib.Find.prefix_sep (fun hq => hb (List.mem_reverse.mp hq))
    fun hq => hb' (List.mem_reverse.mp hq)).mp ⟨[], by rw [List.append_nil]; exact hrev⟩
  have hblank := List.reverse_injective hend.1
  subst hblank
  exact ⟨List.append_cancel_right h, rfl⟩

/-! ## Strings -/

theorem utf8_length (n : Nat) : (utf8 n).length ≤ 4 := by
  rw [utf8, List.length_map, String.length_utf8EncodeChar]
  exact Char.utf8Size_le_four _

theorem scanQuoted_plain {c : Char} (hquote : c ≠ '"') (hback : c ≠ '\\') (t : Text) :
    scanQuoted (c :: t) = (scanQuoted t).map (c :: ·) := by
  rw [scanQuoted.eq_def]
  split
  all_goals grind

theorem scanQuoted_escape (e : Char) (t : Text) :
    scanQuoted ('\\' :: e :: t) = (scanQuoted t).map fun b => '\\' :: e :: b := rfl

theorem unescape_plain {c : Char} (hback : c ≠ '\\') (t : Text) :
    unescape (c :: t) = c :: unescape t := by
  rw [unescape.eq_def]
  split
  all_goals grind

theorem unescape_short {e c : Char} (h : shortEscape e = some c) (t : Text) :
    unescape ('\\' :: e :: t) = c :: unescape t := by
  rw [unescape, h]

theorem unescape_u (t : Text) : unescape ('\\' :: 'u' :: t) = '\\' :: 'u' :: unescape t := rfl

theorem unicodeFree_plain {c : Char} (hquote : c ≠ '"') (hback : c ≠ '\\') (t : Text) :
    unicodeFree (c :: t) = unicodeFree t := by
  rw [unicodeFree.eq_def]
  split
  all_goals grind

theorem unicodeFree_short {e : Char} (h : e ≠ 'u') (t : Text) :
    unicodeFree ('\\' :: e :: t) = unicodeFree t := by
  rw [unicodeFree.eq_def]
  split
  all_goals grind

/-- The scan goes over the text, and it is copied as it is. -/
structure Copied (w : Text) : Prop where
  scan : ∀ {t b}, scanQuoted t = some b → scanQuoted (w ++ t) = some (w ++ b)
  copy : ∀ b, unescape (w ++ b) = w ++ unescape b

theorem copied_nil : Copied [] := ⟨fun h => h, fun _ => rfl⟩

theorem Copied.cons {c : Char} {w : Text} (hquote : c ≠ '"') (hback : c ≠ '\\') (h : Copied w) :
    Copied (c :: w) where
  scan := fun hb => by
    rw [List.cons_append, scanQuoted_plain hquote hback, h.scan hb, Option.map_some]
    rfl
  copy := fun b => by rw [List.cons_append, unescape_plain hback, h.copy]; rfl

theorem Copied.unit {w : Text} (h : Copied w) : Copied ('\\' :: 'u' :: w) where
  scan := fun hb => by
    rw [List.cons_append, List.cons_append, scanQuoted_escape, h.scan hb, Option.map_some]
    rfl
  copy := fun b => by rw [List.cons_append, List.cons_append, unescape_u, h.copy]; rfl

/-- Hexadecimal digits are copied, and so is the escape of the code unit they spell. -/
theorem Copied.codeUnit {a b c d : Char} {n : Nat} {w : Text} (h : codeUnit a b c d = some n)
    (hw : Copied w) : Copied ('\\' :: 'u' :: a :: b :: c :: d :: w) := by
  have hquote : Lib.Json.hexValue '"' = none := by decide
  have hback : Lib.Json.hexValue '\\' = none := by decide
  have hdigit : (a ≠ '"' ∧ a ≠ '\\') ∧ (b ≠ '"' ∧ b ≠ '\\') ∧ (c ≠ '"' ∧ c ≠ '\\') ∧
      d ≠ '"' ∧ d ≠ '\\' := by
    refine ⟨⟨?_, ?_⟩, ⟨?_, ?_⟩, ⟨?_, ?_⟩, ?_, ?_⟩ <;> rintro rfl <;>
      simp [Lib.JsonText.codeUnit, hquote, hback] at h
  obtain ⟨⟨ha, ha'⟩, ⟨hb, hb'⟩, ⟨hc, hc'⟩, hd, hd'⟩ := hdigit
  exact .unit (.cons ha ha' (.cons hb hb' (.cons hc hc' (.cons hd hd' hw))))

/-- More bytes are copied than the code point has. -/
theorem Copied.longer {w b s : Text} {n : Nat} (h : Copied w)
    (hle : s.length ≤ (unescape b).length) (hw : 4 < w.length) :
    (utf8 n ++ s).length < (unescape (w ++ b)).length := by
  have := utf8_length n
  rw [h.copy, List.length_append, List.length_append]
  omega

/-- The scan of a string ends at its closing quote, and what is copied is the string unless an
escape of a code unit makes it longer. -/
theorem scanQuoted_body {t s r : Text} (h : StringBody t s r) :
    ∃ b, scanQuoted t = some b ∧ s.length ≤ (unescape b).length ∧
      (unicodeFree t = true → unescape b = s) ∧
      (unicodeFree t = false → s.length < (unescape b).length) := by
  induction h with
  | close => exact ⟨[], rfl, Nat.le_refl _, fun _ => rfl, fun h => by cases h⟩
  | @plain c t s r hlow hquote hback _ ih =>
    obtain ⟨b, hb, hle, hfree, hunit⟩ := ih
    refine ⟨c :: b, by rw [scanQuoted_plain hquote hback, hb, Option.map_some], ?_⟩
    rw [unescape_plain hback, unicodeFree_plain hquote hback, List.length_cons, List.length_cons]
    refine ⟨by omega, fun h => by rw [hfree h], fun h => ?_⟩
    have := hunit h
    omega
  | @short e c t s r he _ ih =>
    obtain ⟨b, hb, hle, hfree, hunit⟩ := ih
    have hu : e ≠ 'u' := by
      rintro rfl
      cases he
    refine ⟨'\\' :: e :: b, by rw [scanQuoted_escape, hb, Option.map_some], ?_⟩
    rw [unescape_short ((shortEscape_eq e).trans he), unicodeFree_short hu, List.length_cons,
      List.length_cons]
    refine ⟨by omega, fun h => by rw [hfree h], fun h => ?_⟩
    have := hunit h
    omega
  | unit hn _ _ _ ih =>
    obtain ⟨w, hw, hle, -, -⟩ := ih
    have hcopied := Copied.codeUnit hn copied_nil
    refine ⟨_, hcopied.scan hw, Nat.le_of_lt ?_, fun h => (by cases h), fun _ => ?_⟩
    · exact hcopied.longer hle (by simp)
    · exact hcopied.longer hle (by simp)
  | pair hhi _ hlo _ _ ih =>
    obtain ⟨w, hw, hle, -, -⟩ := ih
    have hcopied := Copied.codeUnit hhi (.codeUnit hlo copied_nil)
    refine ⟨_, hcopied.scan hw, Nat.le_of_lt ?_, fun h => (by cases h), fun _ => ?_⟩
    · exact hcopied.longer hle (by simp)
    · exact hcopied.longer hle (by simp)

/-- What is copied has the short escapes decoded and the code units as they are written. -/
theorem scanQuoted_short {t s r : Text} (h : StringBody t s r) :
    ∃ b, scanQuoted t = some b ∧ ShortBody t (unescape b) r := by
  induction h with
  | close => exact ⟨[], rfl, .close⟩
  | @plain c t s r hlow hquote hback _ ih =>
    obtain ⟨b, hb, hshort⟩ := ih
    refine ⟨c :: b, by rw [scanQuoted_plain hquote hback, hb, Option.map_some], ?_⟩
    rw [unescape_plain hback]
    exact .plain hlow hquote hback hshort
  | @short e c t s r he _ ih =>
    obtain ⟨b, hb, hshort⟩ := ih
    refine ⟨'\\' :: e :: b, by rw [scanQuoted_escape, hb, Option.map_some], ?_⟩
    rw [unescape_short ((shortEscape_eq e).trans he)]
    exact .short he hshort
  | unit hn _ _ _ ih =>
    obtain ⟨b, hb, hshort⟩ := ih
    have hcopied := Copied.codeUnit hn copied_nil
    refine ⟨_, hcopied.scan hb, ?_⟩
    rw [hcopied.copy]
    exact .unit hn hshort
  | pair hhi _ hlo _ _ ih =>
    obtain ⟨b, hb, hshort⟩ := ih
    have hcopied := Copied.codeUnit hhi (.codeUnit hlo copied_nil)
    refine ⟨_, hcopied.scan hb, ?_⟩
    rw [hcopied.copy]
    exact .unit hhi (.unit hlo hshort)

/-! ## Bare values -/

theorem isBare_spec {c : Char} (h : isBare c = true) :
    inBareValue c = true ∧ isTrimmed c = false ∧ c ≠ '"' ∧ c ≠ '\x7b' ∧ c ≠ '[' := by
  have hne : ∀ d, isBare d = false → c ≠ d := by
    rintro d hd rfl
    rw [h] at hd
    cases hd
  have hspace := hne ' ' (by decide)
  have htab := hne '\t' (by decide)
  have hreturn := hne '\r' (by decide)
  have hline := hne '\n' (by decide)
  have hcomma := hne ',' (by decide)
  have hbrace := hne '\x7d' (by decide)
  have hbracket := hne ']' (by decide)
  exact ⟨by simp [inBareValue, hcomma, hbrace, hbracket, hline],
    by simp [isTrimmed, hspace, htab, hreturn], hne _ (by decide), hne _ (by decide),
    hne _ (by decide)⟩

theorem trimEnd_append {w v : Text} (hw : w ≠ []) (hend : ∀ c ∈ w, isTrimmed c = false)
    (hv : ∀ c ∈ v, isTrimmed c = true) : trimEnd (w ++ v) = w := by
  obtain ⟨x, xs, hx⟩ := List.exists_cons_of_ne_nil (List.reverse_ne_nil_iff.mpr hw)
  have hmem : x ∈ w := List.mem_reverse.mp (by rw [hx]; exact List.mem_cons_self)
  rw [trimEnd, List.reverse_append,
    List.dropWhile_append_of_pos fun c hc => hv c (List.mem_reverse.mp hc), hx,
    List.dropWhile_cons_of_neg (by rw [hend x hmem]; decide), ← hx, List.reverse_reverse]

/-- Behind a value, blanks are copied up to a line end or to what ends the member. -/
theorem takeWhile_blanks {b r : Text} {d : Char} (hb : ∀ c ∈ b, isSpace c = true)
    (hd : inBareValue d = false) :
    ∀ c ∈ (b ++ d :: r).takeWhile inBareValue, isTrimmed c = true := by
  induction b with
  | nil =>
    rw [List.nil_append, List.takeWhile_cons_of_neg (by rw [hd]; decide)]
    exact fun c hc => absurd hc List.not_mem_nil
  | cons x b ih =>
    rw [List.cons_append, List.takeWhile_cons]
    split
    next hx =>
      refine List.forall_mem_cons.mpr ⟨?_, ih fun c hc => hb c (List.mem_cons_of_mem _ hc)⟩
      have hspace := hb x List.mem_cons_self
      simp only [isSpace, Bool.or_eq_true, beq_iff_eq] at hspace
      simp only [inBareValue, Bool.and_eq_true, decide_eq_true_eq] at hx
      simp only [isTrimmed, Bool.or_eq_true, decide_eq_true_eq]
      tauto
    next => exact fun c hc => absurd hc List.not_mem_nil

/-- A number or a literal is copied without the blanks behind it. -/
theorem trimEnd_bare {w z r : Text} {d : Char} (hw : w ≠ []) (hbare : ∀ c ∈ w, isBare c = true)
    (hd : d = ',' ∨ d = '\x7d') (hz : skipSpace z = d :: r) :
    trimEnd ((w ++ z).takeWhile inBareValue) = w := by
  obtain ⟨b, hb, hblank⟩ := exists_blanks z
  rw [List.takeWhile_append_of_pos fun c hc => (isBare_spec (hbare c hc)).1]
  refine trimEnd_append hw (fun c hc => (isBare_spec (hbare c hc)).2.1) ?_
  rw [hb, hz]
  exact takeWhile_blanks hblank (by rcases hd with rfl | rfl <;> decide)

theorem mem_trimEnd {c : Char} {t : Text} (h : c ∈ trimEnd t) : c ∈ t := by
  rw [trimEnd, List.mem_reverse] at h
  exact List.mem_reverse.mp ((List.dropWhile_suffix _).subset h)

/-! ## Columns -/

theorem valuePlace_some {json name value : Text} :
    valuePlace json name = some value ↔ ∃ pos x, behind json (quoted name) = some pos ∧
      skipSpace pos = ':' :: x ∧ skipSpace x = value := by
  rw [valuePlace]
  cases hpos : behind json (quoted name) with
  | none => simp
  | some pos =>
    simp only [jsonWs_eq, Option.some.injEq, exists_and_left, exists_eq_left']
    split
    next x hx => simp [hx]
    next hno =>
      simp only [reduceCtorEq, false_iff, not_exists, not_and]
      exact fun x hx => absurd hx (hno x)

/-- From the value back over blanks, the colon and blanks there is one place. -/
theorem place_unique {json pos pos' x x' : Text} (h : '"' :: pos <:+ json)
    (h' : '"' :: pos' <:+ json) (hx : skipSpace pos = ':' :: x) (hx' : skipSpace pos' = ':' :: x')
    (heq : skipSpace x = skipSpace x') : pos = pos' := by
  have hne : ∀ {b : Text} {q : Char}, isSpace q = false → (∀ c ∈ b, isSpace c = true) → q ∉ b := by
    intro b q hq hb hmem
    rw [hb q hmem] at hq
    cases hq
  obtain ⟨front, hfront⟩ := h
  obtain ⟨front', hfront'⟩ := h'
  obtain ⟨b, hb, hblank⟩ := exists_blanks pos
  obtain ⟨b', hb', hblank'⟩ := exists_blanks pos'
  obtain ⟨a, ha, hspace⟩ := exists_blanks x
  obtain ⟨a', ha', hspace'⟩ := exists_blanks x'
  rw [hx] at hb
  rw [hx'] at hb'
  have hjson : (front ++ '"' :: b) ++ ':' :: a = (front' ++ '"' :: b') ++ ':' :: a' := by
    have hwhole := hfront.trans hfront'.symm
    rw [hb, hb', ha, ha', heq] at hwhole
    exact List.append_cancel_right
      (show _ ++ skipSpace x' = _ ++ skipSpace x' by simpa using hwhole)
  obtain ⟨hname, hafter⟩ := sep_inj (hne (by decide) hspace) (hne (by decide) hspace') hjson
  obtain ⟨-, hbetween⟩ := sep_inj (hne (by decide) hblank) (hne (by decide) hblank') hname
  rw [hb, hb', ha, ha', hbetween, hafter, heq]

/-- The search comes to the value of a member only by its name. -/
theorem valuePlace_iff {json name : Text} {m : Member} (h : m.In json) :
    valuePlace json name = some m.value ↔ behind json (quoted name) = some m.behindName := by
  obtain ⟨x, hx, hvalue⟩ := h.value
  rw [valuePlace_some]
  constructor
  · rintro ⟨pos, x', hpos, hx', heq⟩
    have hquoted := behind_some hpos
    have hsuffix : '"' :: pos <:+ json :=
      List.IsSuffix.trans ⟨'"' :: name, by simp [quoted]⟩ hquoted
    rw [hpos, place_unique hsuffix h.name hx' hx (heq.trans hvalue)]
  · exact fun hpos => ⟨_, x, hpos, hx, hvalue.symm⟩

theorem orbitJsonGetValue_string {json name t : Text} (h : valuePlace json name = some ('"' :: t)) :
    orbitJsonGetValue json name = (scanQuoted t).map unescape := by
  rw [orbitJsonGetValue, h]
  rfl

theorem orbitJsonGetValue_bare {json name value : Text} (h : valuePlace json name = some value)
    (hvalue : ∀ t, value ≠ '"' :: t) :
    orbitJsonGetValue json name = some (trimEnd (value.takeWhile inBareValue)) := by
  rw [orbitJsonGetValue, h]
  split
  next heq => cases heq
  next t heq => exact absurd (Option.some.inj heq) (hvalue t)
  next pos _ heq => rw [Option.some.inj heq]

theorem simple_other {value : Text} (h : ∀ t, value ≠ '"' :: t) :
    Simple value ↔ ∀ c ∈ value.head?, c ≠ '\x7b' ∧ c ≠ '[' := by
  unfold Simple
  split
  next t => exact absurd rfl (h t)
  next => simp
  next => simp

theorem not_unclosed {value : Text} (h : ∀ t, value ≠ '"' :: t) : ¬ Unclosed value := by
  unfold Unclosed
  split
  next t => exact absurd rfl (h t)
  next => exact id

/-- The value of a member that the search comes to is what the member says exactly if it is a simple
one. -/
theorem getValue_iff {json name : Text} {m : Member} (h : m.In json)
    (hplace : valuePlace json name = some m.value) :
    (∃ s, m.Says s ∧ orbitJsonGetValue json name = some s) ↔ Simple m.value := by
  obtain ⟨d, u, hd, hz⟩ := h.ends
  have hshape := h.shape
  generalize hv : m.value = value at hshape hplace
  generalize hr : m.behind = rest at hshape hz
  cases hshape with
  | @string t s' r hbody =>
    obtain ⟨b, hb, -, hfree, -⟩ := scanQuoted_body hbody
    rw [orbitJsonGetValue_string hplace, hb, Option.map_some]
    simp only [Member.Says, Member.gives_string hv, hr, Option.some.injEq, exists_eq_right']
    constructor
    · intro hs
      obtain ⟨b', hb', -, -, hunit⟩ := scanQuoted_body hs
      rw [hb] at hb'
      obtain rfl := Option.some.inj hb'
      by_contra hno
      exact Nat.lt_irrefl _ (hunit (Bool.eq_false_iff.mpr hno))
    · intro hsimple
      rw [hfree hsimple]
      exact hbody
  | @bare w r hw hbare =>
    obtain ⟨c, w, rfl⟩ := List.exists_cons_of_ne_nil hw
    obtain ⟨-, -, hquote, hbrace, hbracket⟩ := isBare_spec (hbare c List.mem_cons_self)
    have hother : ∀ t, c :: w ++ rest ≠ '"' :: t := fun t heq =>
      hquote (List.head_eq_of_cons_eq heq)
    rw [orbitJsonGetValue_bare hplace hother, trimEnd_bare hw hbare hd hz, simple_other hother]
    refine iff_of_true ⟨_, (Member.gives_other (by rwa [hv])).mpr (by rw [hv, hr]), rfl⟩ ?_
    intro c' hc'
    obtain rfl := Option.some.inj hc'
    exact ⟨hbrace, hbracket⟩
  | @nested o t c r ho hc hsuffix =>
    have hother : ∀ q, o :: t ≠ '"' :: q := by
      intro q heq
      have := List.head_eq_of_cons_eq heq
      rcases ho with rfl | rfl <;> exact absurd this (by decide)
    rw [orbitJsonGetValue_bare hplace hother, simple_other hother]
    refine iff_of_false ?_ fun h => ?_
    · rintro ⟨s, hs, heq⟩
      rw [Member.Says, Member.gives_other (by rwa [hv]), hv, hr] at hs
      obtain ⟨p, rfl⟩ := hsuffix
      have hmem : c ∈ s := by
        have hcut : (o :: p ++ [c]) ++ rest = s ++ rest := by simpa using hs
        rw [← List.append_cancel_right hcut]
        exact List.mem_append_right _ (List.mem_singleton.mpr rfl)
      rw [← Option.some.inj heq] at hmem
      have hin := List.mem_takeWhile_imp (mem_trimEnd hmem)
      rcases hc with rfl | rfl <;> exact absurd hin (by decide)
    · rcases ho with rfl | rfl
      · exact (h _ rfl).1 rfl
      · exact (h _ rfl).2 rfl

/-- Nothing is read unless the search comes to a value. -/
theorem getValue_none_iff (json name : Text) :
    orbitJsonGetValue json name = none ↔ ∀ pos ∈ valuePlace json name, Unclosed pos := by
  cases hplace : valuePlace json name with
  | none =>
    rw [orbitJsonGetValue, hplace]
    simp
  | some pos =>
    simp only [Option.mem_def, Option.some.injEq, forall_eq']
    by_cases hquote : ∃ t, pos = '"' :: t
    · obtain ⟨t, rfl⟩ := hquote
      rw [orbitJsonGetValue_string hplace, Option.map_eq_none_iff]
      rfl
    · have hother : ∀ t, pos ≠ '"' :: t := fun t heq => hquote ⟨t, heq⟩
      rw [orbitJsonGetValue_bare hplace hother]
      exact iff_of_false (by simp) (not_unclosed hother)

/-- **A column gets what its member says, from the place of the member, and nothing where there is
none, exactly when the first place of the quoted name is the member and its value is simple.** -/
theorem orbitJsonGetValue_iff {json : Text} {ms : List Member} (h : Document json ms)
    (name : Text) :
    ReadsMember json ms name ∧ FromMember json ms name ↔ Searchable json ms name := by
  rw [ReadsMember, FromMember, Searchable]
  cases hm : lastNamed name ms with
  | none =>
    rw [← getValue_none_iff]
    simp
  | some m =>
    have hmem : m ∈ ms := List.mem_of_mem_filter (List.mem_of_getLast? hm)
    have hin := h.mem m hmem
    simp only [Option.mem_def, Option.some.injEq, forall_eq']
    rw [← valuePlace_iff hin]
    constructor
    · rintro ⟨hvalue, hplace⟩
      exact ⟨hplace, (getValue_iff hin hplace).mp hvalue⟩
    · rintro ⟨hplace, hsimple⟩
      exact ⟨(getValue_iff hin hplace).mpr hsimple, hplace⟩

/-- **A name whose first quoted place is a member gets the value of that member**, with the escapes
of code units as they are written, unless it is an object or an array; a name of no member gets
nothing, unless its first quoted place has a colon behind it. -/
theorem orbitJsonGetValue_reads {json : Text} {ms : List Member} (h : Document json ms)
    (name : Text) :
    (∀ m ∈ lastNamed name ms, behind json (quoted name) = some m.behindName →
      (∀ c ∈ m.value.head?, c ≠ '\x7b' ∧ c ≠ '[') →
      valuePlace json name = some m.value ∧
        ∃ s, m.Gives ShortBody s ∧ orbitJsonGetValue json name = some s) ∧
    (lastNamed name ms = none →
      (∀ pos ∈ behind json (quoted name), ∀ x, skipSpace pos ≠ ':' :: x) →
      orbitJsonGetValue json name = none) := by
  constructor
  · intro m hm hfirst hflat
    have hin := h.mem m (List.mem_of_mem_filter (List.mem_of_getLast? hm))
    have hplace := (valuePlace_iff hin).mpr hfirst
    refine ⟨hplace, ?_⟩
    by_cases hquote : ∃ t, m.value = '"' :: t
    · obtain ⟨t, ht⟩ := hquote
      have hshape := hin.shape
      rw [ht] at hshape hplace
      obtain ⟨s, hs⟩ := hshape.body
      obtain ⟨b, hb, hshort⟩ := scanQuoted_short hs
      refine ⟨unescape b, (Member.gives_string ht).mpr hshort, ?_⟩
      rw [orbitJsonGetValue_string hplace, hb, Option.map_some]
    · have hother : ∀ t, m.value ≠ '"' :: t := fun t heq => hquote ⟨t, heq⟩
      obtain ⟨s, hs, heq⟩ := (getValue_iff hin hplace).mpr ((simple_other hother).mpr hflat)
      exact ⟨s, (Member.gives_other hother).mpr ((Member.gives_other hother).mp hs), heq⟩
  · intro _ hnone
    rw [getValue_none_iff]
    intro pos hpos
    obtain ⟨place, x, hplace, hx, -⟩ := valuePlace_some.mp hpos
    exact absurd hx (hnone place hplace x)

/-- Then an insert stores what the document says. -/
theorem orbitDbAddValues_stored {json : Text} {ms : List Member} (h : Document json ms)
    {columns : List Text} (hall : ∀ name ∈ columns, Searchable json ms name) :
    List.Forall₂ (Stored ms) (columns.take kMaxCols) (orbitDbAddValues columns json) := by
  rw [orbitDbAddValues, List.forall₂_map_right_iff, List.forall₂_same]
  intro name hname
  have hread := ((orbitJsonGetValue_iff h name).mpr (hall name (List.mem_of_mem_take hname))).1
  rw [ReadsMember] at hread
  rw [Stored]
  cases hm : lastNamed name ms with
  | none =>
    rw [hm] at hread
    exact congrArg (Option.getD · []) hread
  | some m =>
    rw [hm] at hread
    obtain ⟨s, hs, heq⟩ := hread
    rwa [heq]

/-- And an update writes the columns that have a member, each with what it says. -/
theorem orbitDbSetValues_stored {json : Text} {ms : List Member} (h : Document json ms)
    {columns : List Text} (hall : ∀ name ∈ columns, Searchable json ms name) :
    ∀ p ∈ orbitDbSetValues columns json, ∃ m ∈ lastNamed p.1 ms, m.Says p.2 := by
  intro p hp
  obtain ⟨name, hname, hvalue⟩ := List.mem_filterMap.mp (List.mem_of_mem_take hp)
  obtain ⟨value, heq, rfl⟩ := Option.map_eq_some_iff.mp hvalue
  have hread := ((orbitJsonGetValue_iff h name).mpr (hall name (List.mem_of_mem_filter hname))).1
  rw [ReadsMember] at hread
  cases hm : lastNamed name ms with
  | none =>
    rw [hm, heq] at hread
    cases hread
  | some m =>
    rw [hm] at hread
    obtain ⟨s, hs, heq'⟩ := hread
    rw [heq, Option.some.injEq] at heq'
    exact ⟨m, rfl, by rwa [heq']⟩

/-! ### Examples of both kinds -/

theorem stringBody_name (c : Char) (r : Text) (h : 0x20 ≤ c.toNat ∧ c ≠ '"' ∧ c ≠ '\\') :
    StringBody (c :: '"' :: r) [c] r :=
  .plain h.1 h.2.1 h.2.2 .close

theorem digit_value (c : Char) (r : Text) (h : Lib.Decimal.isDigit c = true) :
    Value (c :: r) r := by
  have hdigits : Digits [c] := ⟨List.cons_ne_nil _ _, by simpa using h⟩
  have hnumber : Number ([] ++ [c] ++ [] ++ []) :=
    .mk (.inl rfl) hdigits (fun h => by rw [Option.some.inj h]) (.inl rfl) (.inl rfl)
  exact .number hnumber

/-- `{"b":[1],"a":"x\n"}`. -/
def listBefore : Text :=
  ['\x7b', '"', 'b', '"', ':', '[', '1', ']', ',', '"', 'a', '"', ':', '"', 'x', '\\', 'n', '"',
    '\x7d']

def listBeforeMembers : List Member :=
  [⟨['b'], listBefore.drop 4, listBefore.drop 5, listBefore.drop 8⟩,
    ⟨['a'], listBefore.drop 12, listBefore.drop 13, listBefore.drop 18⟩]

theorem listBefore_document : Document listBefore listBeforeMembers := by
  have hlist : Value (listBefore.drop 5) (listBefore.drop 8) :=
    .array (.last (digit_value '1' _ (by decide)) rfl)
  have hbody : StringBody (listBefore.drop 14) ['x', '\n'] (listBefore.drop 18) :=
    .plain (by decide) (by decide) (by decide) (.short rfl .close)
  have hlast : Members (listBefore.drop 9) [_] [] :=
    .last rfl (stringBody_name 'a' _ (by decide)) rfl (.string hbody) rfl
  have hall : Members (listBefore.drop 1) listBeforeMembers [] :=
    .more (x := listBefore.drop 5) rfl (stringBody_name 'b' _ (by decide)) rfl hlist rfl hlast
  exact .members rfl hall rfl

/-- The column `a` gets its string with the line end, and a column `c` nothing. -/
theorem orbitJsonGetValue_listBefore :
    valuePlace listBefore ['a'] = some (listBefore.drop 13) ∧
      orbitJsonGetValue listBefore ['a'] = some ['x', '\n'] ∧
      orbitJsonGetValue listBefore ['c'] = none := by
  have hflat : ∀ c ∈ (listBefore.drop 13).head?, c ≠ '\x7b' ∧ c ≠ '[' := by simp [listBefore]
  have hread := (orbitJsonGetValue_reads listBefore_document ['a']).1 _ rfl rfl hflat
  have hplace : behind listBefore (quoted ['c']) = none := by decide
  have habsent := (orbitJsonGetValue_reads listBefore_document ['c']).2 rfl fun pos hpos => by
    rw [hplace] at hpos
    cases hpos
  exact ⟨hread.1, by decide, habsent⟩

/-- `{"b":{"a":1},"a":2}`. -/
def nestedBefore : Text :=
  ['\x7b', '"', 'b', '"', ':', '\x7b', '"', 'a', '"', ':', '1', '\x7d', ',', '"', 'a', '"', ':',
    '2', '\x7d']

def nestedBeforeMembers : List Member :=
  [⟨['b'], nestedBefore.drop 4, nestedBefore.drop 5, nestedBefore.drop 12⟩,
    ⟨['a'], nestedBefore.drop 16, nestedBefore.drop 17, nestedBefore.drop 18⟩]

theorem nestedBefore_document : Document nestedBefore nestedBeforeMembers := by
  have hinner : Members (nestedBefore.drop 6) [_] (nestedBefore.drop 12) :=
    .last rfl (stringBody_name 'a' _ (by decide)) rfl (digit_value '1' _ (by decide)) rfl
  have hlast : Members (nestedBefore.drop 13) [_] [] :=
    .last rfl (stringBody_name 'a' _ (by decide)) rfl (digit_value '2' _ (by decide)) rfl
  have hall : Members (nestedBefore.drop 1) nestedBeforeMembers [] :=
    .more (x := nestedBefore.drop 5) rfl (stringBody_name 'b' _ (by decide)) rfl (.object hinner)
      rfl hlast
  exact .members rfl hall rfl

/-- `{"a":"\u0041b"}`. -/
def unitValue : Text :=
  ['\x7b', '"', 'a', '"', ':', '"', '\\', 'u', '0', '0', '4', '1', 'b', '"', '\x7d']

def unitValueMembers : List Member :=
  [⟨['a'], unitValue.drop 4, unitValue.drop 5, unitValue.drop 14⟩]

theorem unitValue_document : Document unitValue unitValueMembers := by
  have hbody : StringBody (unitValue.drop 6) (utf8 0x41 ++ ['b']) (unitValue.drop 14) :=
    .unit rfl (by simp [isHigh]) (by simp [isLow]) (stringBody_name 'b' _ (by decide))
  have hall : Members (unitValue.drop 1) unitValueMembers [] :=
    .last (x := unitValue.drop 5) rfl (stringBody_name 'a' _ (by decide)) rfl (.string hbody) rfl
  exact .members rfl hall rfl

/-- Both documents are accepted. In the first the column `a` gets the 1 of the object inside `b`, in
the second the escape as it is written. -/
theorem orbitJsonGetValue_other :
    (Json.orbitJsonParse Json.textFloats nestedBefore).isOk = true ∧
      Document nestedBefore nestedBeforeMembers ∧
      orbitJsonGetValue nestedBefore ['a'] = some ['1'] ∧
      ¬ FromMember nestedBefore nestedBeforeMembers ['a'] ∧
    (Json.orbitJsonParse Json.textFloats unitValue).isOk = true ∧
      Document unitValue unitValueMembers ∧
      orbitJsonGetValue unitValue ['a'] = some ['\\', 'u', '0', '0', '4', '1', 'b'] ∧
      ¬ ReadsMember unitValue unitValueMembers ['a'] := by
  refine ⟨by decide, nestedBefore_document, by decide, fun h => ?_, by decide,
    unitValue_document, by decide, ?_⟩
  · exact absurd (h _ rfl) (by decide)
  · intro hread
    have hfrom : FromMember unitValue unitValueMembers ['a'] := fun m hm => by
      obtain rfl := Option.some.inj hm
      decide
    have hfound := (orbitJsonGetValue_iff unitValue_document ['a']).mp ⟨hread, hfrom⟩
    exact Bool.false_ne_true hfound.2

end Runtime.JsonField
