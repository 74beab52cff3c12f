import Orbit.Runtime.Fetch
import Orbit.Runtime.Proof.HttpFields

/-!
# The head of a reply

The client decides about a body at the first place where the name of a field stands, wherever that
is. So it reads the header lines of that name, and no other bytes, exactly when no such place lies
inside a line before the first of them (`readsOwnLines_iff`).
-/

namespace Runtime.Fetch

open Http (Text nul isBlank isCaseless startsCaseless)
open Lib.Decimal (isDigit)

/-! ## Places -/

/-- A text is read from one line end to the next. -/
@[elab_as_elim]
theorem lines_rec {motive : Text → Prop} (nil : motive [])
    (crlf : ∀ u, motive u → motive ('\r' :: '\n' :: u))
    (cons : ∀ c u, (∀ v, c = '\r' → u = '\n' :: v → False) → motive u → motive (c :: u))
    (t : Text) : motive t :=
  starts.induct motive nil crlf cons t

theorem starts_nil : starts [] = [] := rfl

theorem starts_crlf (t : Text) : starts ('\r' :: '\n' :: t) = t :: starts t := rfl

theorem starts_cons {c : Char} {t : Text} (h : ∀ u, c = '\r' → t = '\n' :: u → False) :
    starts (c :: t) = starts t := by
  rw [starts]
  exact h

theorem suffix_of_mem_starts {head t : Text} (h : t ∈ starts head) :
    t <:+ head ∧ t.length < head.length := by
  induction head using lines_rec with
  | nil => cases h
  | crlf u ih =>
    rw [starts_crlf] at h
    rcases List.mem_cons.mp h with rfl | h
    · refine ⟨⟨['\r', '\n'], rfl⟩, ?_⟩
      simp only [List.length_cons]
      omega
    · obtain ⟨hsuffix, hlt⟩ := ih h
      refine ⟨hsuffix.trans ⟨['\r', '\n'], rfl⟩, ?_⟩
      simp only [List.length_cons]
      omega
  | cons c u hne ih =>
    rw [starts_cons hne] at h
    obtain ⟨hsuffix, hlt⟩ := ih h
    exact ⟨hsuffix.trans (List.suffix_cons c u), by rw [List.length_cons]; omega⟩

theorem suffix_eq_of_length {a b head : Text} (ha : a <:+ head) (hb : b <:+ head)
    (h : a.length = b.length) : a = b :=
  (List.suffix_of_suffix_length_le ha hb h.le).eq_of_length h

/-- The place found is the first at which something is read. -/
theorem firstHit_eq_some {hit : Text → Bool} (hnil : hit [] = false) {head t : Text} :
    firstHit hit head = some t ↔
      t <:+ head ∧ hit t = true ∧ ∀ t', t' <:+ head → hit t' = true → t'.length ≤ t.length := by
  induction head with
  | nil =>
    rw [firstHit]
    refine iff_of_false nofun ?_
    rintro ⟨hsuffix, hhit, -⟩
    rw [List.suffix_nil.mp hsuffix, hnil] at hhit
    cases hhit
  | cons c u ih =>
    rw [firstHit]
    split
    · next hhit =>
      constructor
      · rintro h
        cases h
        exact ⟨List.suffix_rfl, hhit, fun t' hsuffix _ => hsuffix.length_le⟩
      · rintro ⟨hsuffix, -, hfirst⟩
        have hle := hfirst _ List.suffix_rfl hhit
        rw [suffix_eq_of_length hsuffix List.suffix_rfl (Nat.le_antisymm hsuffix.length_le hle)]
    · next hmiss =>
      have hskip : ∀ {t}, t <:+ c :: u → hit t = true → t <:+ u := by
        intro t hsuffix hhit
        rcases List.suffix_cons_iff.mp hsuffix with rfl | hsuffix
        · exact absurd hhit hmiss
        · exact hsuffix
      rw [ih]
      constructor
      · rintro ⟨hsuffix, hhit, hfirst⟩
        exact ⟨hsuffix.trans (List.suffix_cons c u), hhit,
          fun t' hs ht => hfirst t' (hskip hs ht) ht⟩
      · rintro ⟨hsuffix, hhit, hfirst⟩
        exact ⟨hskip hsuffix hhit, hhit, fun t' hs ht =>
          hfirst t' (hs.trans (List.suffix_cons c u)) ht⟩

theorem firstHit_isSome {hit : Text → Bool} (hnil : hit [] = false) {head t : Text}
    (hsuffix : t <:+ head) (hhit : hit t = true) : ∃ t0, firstHit hit head = some t0 := by
  induction head with
  | nil =>
    rw [List.suffix_nil.mp hsuffix, hnil] at hhit
    cases hhit
  | cons c u ih =>
    rw [firstHit]
    split
    · exact ⟨_, rfl⟩
    · next hmiss =>
      rcases List.suffix_cons_iff.mp hsuffix with rfl | hsuffix
      · exact absurd hhit hmiss
      · exact ih hsuffix

/-- The first header line is the one with the most text from it on. -/
theorem find_starts_eq_some {hit : Text → Bool} {head t : Text} :
    (starts head).find? hit = some t ↔
      t ∈ starts head ∧ hit t = true ∧ ∀ t' ∈ starts head, hit t' = true → t'.length ≤ t.length := by
  induction head using lines_rec with
  | nil => simp [starts_nil]
  | crlf u ih =>
    rw [starts_crlf]
    by_cases hhit : hit u = true
    · rw [List.find?_cons_of_pos hhit]
      constructor
      · rintro h
        cases h
        refine ⟨List.mem_cons_self, hhit, fun t' ht' _ => ?_⟩
        rcases List.mem_cons.mp ht' with rfl | ht'
        · exact Nat.le_refl _
        · exact (suffix_of_mem_starts ht').2.le
      · rintro ⟨hmem, -, hfirst⟩
        have hle := hfirst u List.mem_cons_self hhit
        rcases List.mem_cons.mp hmem with rfl | hmem
        · rfl
        · have := (suffix_of_mem_starts hmem).2
          omega
    · rw [List.find?_cons_of_neg hhit, ih]
      constructor
      · rintro ⟨hmem, ht, hfirst⟩
        refine ⟨List.mem_cons_of_mem _ hmem, ht, fun t' ht' hhit' => ?_⟩
        rcases List.mem_cons.mp ht' with rfl | ht'
        · exact absurd hhit' hhit
        · exact hfirst t' ht' hhit'
      · rintro ⟨hmem, ht, hfirst⟩
        rcases List.mem_cons.mp hmem with rfl | hmem
        · exact absurd ht hhit
        · exact ⟨hmem, ht, fun t' ht' => hfirst t' (List.mem_cons_of_mem _ ht')⟩
  | cons c u hne ih =>
    rw [starts_cons hne, ih]

/-- Something is read at a header line first, unless it is read inside a line before. -/
theorem firstHit_eq_find_iff {hit : Text → Bool} (hnil : hit [] = false) (head : Text) :
    firstHit hit head = (starts head).find? hit ↔ ¬ Stray hit head := by
  constructor
  · rintro h ⟨t, hsuffix, hhit, -, hbefore⟩
    obtain ⟨t0, hfound⟩ := firstHit_isSome hnil hsuffix hhit
    rw [hfound] at h
    obtain ⟨hmem, hhit0, -⟩ := find_starts_eq_some.mp h.symm
    obtain ⟨-, -, hfirst⟩ := (firstHit_eq_some hnil).mp hfound
    have hle := hfirst t hsuffix hhit
    have hlt := hbefore t0 hmem hhit0
    omega
  · intro h
    cases hfound : firstHit hit head with
    | none =>
      symm
      rw [List.find?_eq_none]
      intro t ht hhit
      obtain ⟨t0, hsome⟩ := firstHit_isSome hnil (suffix_of_mem_starts ht).1 hhit
      rw [hfound] at hsome
      cases hsome
    | some t =>
      obtain ⟨hsuffix, hhit, hfirst⟩ := (firstHit_eq_some hnil).mp hfound
      have hown : ∀ t' ∈ starts head, hit t' = true → t'.length ≤ t.length := fun t' ht' =>
        hfirst t' (suffix_of_mem_starts ht').1
      by_cases hmem : t ∈ starts head
      · exact (find_starts_eq_some.mpr ⟨hmem, hhit, hown⟩).symm
      · refine absurd ⟨t, hsuffix, hhit, hmem, fun t' ht' hhit' => ?_⟩ h
        refine lt_of_le_of_ne (hown t' ht' hhit') fun heq => hmem ?_
        exact suffix_eq_of_length (suffix_of_mem_starts ht').1 hsuffix heq ▸ ht'

/-! ## What is read -/

theorem httpContentLength_eq (abi : Abi) (head : Text) :
    httpContentLength abi head =
      match firstHit isLengthHit head with
      | none => -1
      | some t => lengthNumber abi 0 0 ((t.drop 15).dropWhile isBlank) := by
  induction head with
  | nil => rfl
  | cons c t ih =>
    rw [httpContentLength, firstHit]
    by_cases hname : startsCaseless "content-length:" (c :: t) = true
    · by_cases hdigit : (((c :: t).drop 15).dropWhile isBlank).head?.any isDigit = true
      · have hhit : isLengthHit (c :: t) = true := by rw [isLengthHit, hname, hdigit]; rfl
        rw [if_pos hname, if_pos hhit]
        exact if_pos hdigit
      · have hmiss : ¬ isLengthHit (c :: t) = true := by
          rw [isLengthHit, Bool.and_eq_true]
          exact fun hand => hdigit hand.2
        rw [if_pos hname, if_neg hmiss, ← ih]
        exact if_neg hdigit
    · have hmiss : ¬ isLengthHit (c :: t) = true := by
        rw [isLengthHit, Bool.and_eq_true]
        exact fun hand => hname hand.1
      rw [if_neg hname, if_neg hmiss, ih]

theorem httpIsChunked_eq (head : Text) :
    httpIsChunked head =
      match firstHit isCodingHit head with
      | none => false
      | some t => namesChunked (t.drop 18) := by
  induction head with
  | nil => rfl
  | cons c t ih =>
    rw [httpIsChunked, firstHit, isCodingHit]
    by_cases hname : startsCaseless "transfer-encoding:" (c :: t) = true
    · rw [if_pos hname, if_pos hname]
      rfl
    · rw [if_neg hname, if_neg hname, ih]

/-! ## Lines -/

theorem lineAt_go {c : Char} {t : Text} (h : ∀ u, c = '\r' → t = '\n' :: u → False) :
    lineAt (c :: t) = c :: lineAt t := by
  rw [lineAt]
  exact h

theorem lineAt_cons {c : Char} {t : Text} (h : c ≠ '\r') : lineAt (c :: t) = c :: lineAt t :=
  lineAt_go fun _ hc _ => h hc

theorem lineAt_append {a t : Text} (h : '\r' ∉ a) : lineAt (a ++ t) = a ++ lineAt t := by
  induction a with
  | nil => rfl
  | cons c a ih =>
    rw [List.mem_cons, not_or] at h
    rw [List.cons_append, lineAt_cons (Ne.symm h.1), ih h.2, List.cons_append]

/-- A text is its first line, and nothing or a line end. -/
theorem lineAt_split (t : Text) :
    ∃ rest, t = lineAt t ++ rest ∧ ∀ c, rest.head? = some c → c = '\r' := by
  induction t using lines_rec with
  | nil => exact ⟨[], rfl, nofun⟩
  | crlf u =>
    exact ⟨'\r' :: '\n' :: u, rfl, fun c hc => by cases hc; rfl⟩
  | cons c u hne ih =>
    obtain ⟨rest, hrest, hstop⟩ := ih
    refine ⟨rest, ?_, hstop⟩
    rw [lineAt_go hne, List.cons_append, ← hrest]

theorem not_mem_of_caseless {u name : Text} (h : u.map Char.toLower = name) {c : Char}
    (hlow : c.toLower = c) (hc : c ∉ name) : c ∉ u := fun hmem =>
  hc (h ▸ hlow ▸ List.mem_map_of_mem hmem)

/-- A text that starts with a word and a colon, taken apart. -/
theorem startsCaseless_split {name word : String} (hword : word.toList = name.toList ++ [':'])
    {t : Text} (h : startsCaseless word t = true) :
    ∃ u rest, t = u ++ ':' :: rest ∧ u.map Char.toLower = name.toList := by
  rw [startsCaseless, decide_eq_true_eq, hword] at h
  obtain ⟨u, v, hsplit, hu, hv⟩ := List.map_eq_append_iff.mp h
  obtain ⟨x, rfl, hx⟩ := List.map_eq_singleton_iff.mp hv
  rw [Http.toLower_colon hx] at hsplit
  refine ⟨u, t.drop (name.toList ++ [':']).length, ?_, hu⟩
  have ht := List.take_append_drop (name.toList ++ [':']).length t
  rw [hsplit, List.append_assoc] at ht
  exact ht.symm

theorem takeWhile_colon {u : Text} (v : Text) (h : ':' ∉ u) :
    (u ++ ':' :: v).takeWhile (· ≠ ':') = u ∧ (u ++ ':' :: v).dropWhile (· ≠ ':') = ':' :: v := by
  have hall : ∀ c ∈ u, decide (c ≠ ':') = true := fun c hc => decide_eq_true fun heq => h (heq ▸ hc)
  rw [List.takeWhile_append_of_pos hall, List.dropWhile_append_of_pos hall]
  simp

/-- A line has a field of a name when it starts with the name and a colon. -/
theorem fieldText_lineAt {name word : String} (hword : word.toList = name.toList ++ [':'])
    (hcolon : ':' ∉ name.toList) (hcr : '\r' ∉ name.toList) (t : Text) :
    fieldText name (lineAt t) =
      if startsCaseless word t then some ((lineAt t).drop word.toList.length) else none := by
  split
  · next h =>
    obtain ⟨u, rest, rfl, hu⟩ := startsCaseless_split hword h
    have hucr := not_mem_of_caseless hu (c := '\r') (by decide) hcr
    have hucolon := not_mem_of_caseless hu (c := ':') (by decide) hcolon
    have hline : lineAt (u ++ ':' :: rest) = u ++ ':' :: lineAt rest := by
      rw [lineAt_append hucr, lineAt_cons (by decide)]
    obtain ⟨htake, hdrop⟩ := takeWhile_colon (lineAt rest) hucolon
    have hlen : word.toList.length = u.length + 1 := by
      rw [hword, List.length_append, ← hu, List.length_map]
      rfl
    rw [fieldText, hline, htake, hdrop, if_pos ⟨by simp, by rw [isCaseless, hu, decide_eq_true_eq]⟩,
      hlen, ← List.drop_drop, List.drop_left]
  · next h =>
    rw [fieldText, if_neg]
    rintro ⟨hmem, hname⟩
    obtain ⟨u, v, hline, hucolon⟩ := List.eq_append_cons_of_mem hmem
    obtain ⟨rest, hrest, -⟩ := lineAt_split t
    rw [hline, (takeWhile_colon v hucolon).1, isCaseless, decide_eq_true_eq] at hname
    have hlen : (name.toList ++ [':']).length = (u ++ [':']).length := by
      rw [← hname]
      simp
    have hbytes : t = (u ++ [':']) ++ (v ++ rest) := by
      rw [hrest, hline]
      simp
    refine h ?_
    rw [startsCaseless, hword, decide_eq_true_eq, hlen, hbytes, List.take_left, List.map_append,
      hname]
    rfl

/-! ## Values -/

/-- Nothing, or what begins with a line end. -/
def StopsLine (rest : Text) : Prop := ∀ c, rest.head? = some c → c = '\r'

theorem value_split {name word : String} (hword : word.toList = name.toList ++ [':'])
    (hcr : '\r' ∉ name.toList) {t : Text} (h : startsCaseless word t = true) :
    ∃ rest, t.drop word.toList.length = (lineAt t).drop word.toList.length ++ rest ∧
      StopsLine rest := by
  obtain ⟨u, r, rfl, hu⟩ := startsCaseless_split hword h
  have hucr := not_mem_of_caseless hu (c := '\r') (by decide) hcr
  have hlen : word.toList.length = u.length + 1 := by
    rw [hword, List.length_append, ← hu, List.length_map]
    rfl
  obtain ⟨rest, hrest, hstop⟩ := lineAt_split r
  refine ⟨rest, ?_, hstop⟩
  rw [hlen, lineAt_append hucr, lineAt_cons (by decide), ← List.drop_drop, ← List.drop_drop,
    List.drop_left, List.drop_left]
  exact hrest

theorem dropWhile_stop {f : Char → Bool} (hf : f '\r' = false) (y : Text) {rest : Text}
    (h : StopsLine rest) : (y ++ rest).dropWhile f = y.dropWhile f ++ rest := by
  induction y with
  | nil =>
    cases rest with
    | nil => rfl
    | cons c rest => simp [h c rfl, hf]
  | cons c y ih =>
    rw [List.cons_append, List.dropWhile_cons, List.dropWhile_cons, ih]
    split <;> rfl

theorem head_stop {f : Char → Bool} (hf : f '\r' = false) (v : Text) {rest : Text}
    (h : StopsLine rest) : (v ++ rest).head?.any f = v.head?.any f := by
  cases v with
  | cons c v => rfl
  | nil =>
    cases rest with
    | nil => rfl
    | cons c rest => simp [h c rfl, hf]

theorem lengthNumber_stop (abi : Abi) (v : Text) {rest : Text} (h : StopsLine rest) (n : Int)
    (k : Nat) : lengthNumber abi n k (v ++ rest) = lengthNumber abi n k v := by
  induction v generalizing n k with
  | nil =>
    cases rest with
    | nil => rfl
    | cons c rest =>
      have hc : ¬ isDigit c = true := by
        rw [h c rfl]
        decide
      simp [lengthNumber, hc]
  | cons c v ih => simp only [List.cons_append, lengthNumber, ih]

/-- The length that is read at a line is the one of its value. -/
theorem lengthOf_fieldText (abi : Abi) (t : Text) :
    (fieldText "content-length" (lineAt t)).bind (lengthOf abi) =
      if isLengthHit t then some (lengthNumber abi 0 0 ((t.drop 15).dropWhile isBlank))
      else none := by
  rw [@fieldText_lineAt "content-length" "content-length:" rfl (by decide) (by decide),
    isLengthHit]
  by_cases hname : startsCaseless "content-length:" t = true
  · obtain ⟨rest, hrest, hstop⟩ :=
      @value_split "content-length" "content-length:" rfl (by decide) t hname
    have hlen : "content-length:".toList.length = 15 := rfl
    rw [hlen] at hrest ⊢
    rw [if_pos hname, hname, Bool.true_and, hrest, dropWhile_stop (by decide) _ hstop,
      head_stop (by decide) _ hstop, lengthNumber_stop abi _ hstop]
    rfl
  · rw [if_neg hname, Bool.eq_false_iff.mpr hname]
    rfl

theorem namesChunked_stop (y : Text) {rest : Text} (h : StopsLine rest) :
    namesChunked (y ++ rest) = namesChunked y := by
  have hseven : "chunked".toList.length = 7 := rfl
  simp only [namesChunked]
  rw [dropWhile_stop (by decide) y h]
  generalize y.dropWhile isBlank = v
  by_cases hlen : 7 ≤ v.length
  · have htake : startsCaseless "chunked" (v ++ rest) = startsCaseless "chunked" v := by
      rw [startsCaseless, startsCaseless, hseven, List.take_append_of_le_length hlen]
    rw [htake, List.drop_append_of_le_length hlen]
    congr 1
    cases v.drop 7 with
    | cons c w => rfl
    | nil =>
      cases rest with
      | nil => rfl
      | cons c rest =>
        rw [h c rfl]
        rfl
  · have hshort : startsCaseless "chunked" v = false := by
      rw [Bool.eq_false_iff]
      intro hstarts
      exact hlen (Http.startsCaseless_length hstarts)
    have hlong : startsCaseless "chunked" (v ++ rest) = false := by
      cases rest with
      | nil => rw [List.append_nil, hshort]
      | cons c rest =>
        rw [Bool.eq_false_iff, startsCaseless, hseven]
        intro heq
        rw [decide_eq_true_eq] at heq
        have hmem : c ∈ (v ++ c :: rest).take 7 := by
          rw [List.mem_take_iff_getElem]
          exact ⟨v.length, by simp; omega, by simp⟩
        rw [h c rfl] at hmem heq
        have hcr : ('\r').toLower ∈ "chunked".toList := heq ▸ List.mem_map_of_mem hmem
        exact absurd hcr (by decide)
    rw [hshort, hlong]
    rfl

theorem namesChunked_fieldText (t : Text) :
    (fieldText "transfer-encoding" (lineAt t)).map namesChunked =
      if isCodingHit t then some (namesChunked (t.drop 18)) else none := by
  rw [@fieldText_lineAt "transfer-encoding" "transfer-encoding:" rfl (by decide) (by decide),
    isCodingHit]
  split
  · next hname =>
    obtain ⟨rest, hrest, hstop⟩ :=
      @value_split "transfer-encoding" "transfer-encoding:" rfl (by decide) t hname
    have hlen : "transfer-encoding:".toList.length = 18 := rfl
    rw [hlen] at hrest ⊢
    rw [hrest, namesChunked_stop _ hstop]
    rfl
  · rfl

theorem findSome_filterMap {α β γ : Type} (f : α → Option β) (g : β → Option γ) (l : List α) :
    (l.filterMap f).findSome? g = l.findSome? fun a => (f a).bind g := by
  induction l with
  | nil => rfl
  | cons a l ih => cases hf : f a <;> simp [hf, ih, List.findSome?_cons]

theorem findSome_ite {α β : Type} (p : α → Bool) (f : α → β) (l : List α) :
    (l.findSome? fun a => if p a then some (f a) else none) = (l.find? p).map f := by
  induction l with
  | nil => rfl
  | cons a l ih => cases hp : p a <;> simp [hp, ih]

/-- The length that the header lines give. -/
theorem lengths_eq (abi : Abi) (head : Text) :
    (fieldTexts "content-length" head).findSome? (lengthOf abi) =
      ((starts head).find? isLengthHit).map
        fun t => lengthNumber abi 0 0 ((t.drop 15).dropWhile isBlank) := by
  rw [fieldTexts, findSome_filterMap]
  simp only [lengthOf_fieldText]
  exact findSome_ite _ _ _

/-- The coding that the header lines give. -/
theorem codings_eq (head : Text) :
    (fieldTexts "transfer-encoding" head).head?.map namesChunked =
      ((starts head).find? isCodingHit).map fun t => namesChunked (t.drop 18) := by
  rw [fieldTexts]
  induction starts head with
  | nil => rfl
  | cons t l ih =>
    have hfield := namesChunked_fieldText t
    by_cases hhit : isCodingHit t = true
    · rw [if_pos hhit] at hfield
      obtain ⟨v, hv, hnames⟩ := Option.map_eq_some_iff.mp hfield
      rw [List.find?_cons_of_pos hhit, Option.map_some, ← hnames]
      simp [hv]
    · rw [if_neg hhit, Option.map_eq_none_iff] at hfield
      rw [List.find?_cons_of_neg hhit, ← ih]
      simp [hfield]

/-! ## The head -/

theorem headersEndFrom_append {i e : Nat} {reply : Text} (h : headersEndFrom i reply = some e)
    (more : Text) :
    headersEndFrom i (reply ++ more) = some e ∧ i + 4 ≤ e ∧ e ≤ i + reply.length := by
  induction reply generalizing i with
  | nil => cases h
  | cons c t ih =>
    rw [headersEndFrom] at h
    rw [List.cons_append, headersEndFrom]
    by_cases hend : ['\r', '\n', '\r', '\n'] <+: c :: t
    · rw [if_pos (List.isPrefixOf_iff_prefix.mpr hend)] at h
      cases h
      refine ⟨if_pos (List.isPrefixOf_iff_prefix.mpr ?_), Nat.le_refl _, ?_⟩
      · exact hend.trans (List.prefix_append (c :: t) more)
      · exact Nat.add_le_add_left hend.length_le i
    · rw [if_neg (mt List.isPrefixOf_iff_prefix.mp hend)] at h
      obtain ⟨hrest, hge, hle⟩ := ih h
      refine ⟨?_, by omega, by rw [List.length_cons]; omega⟩
      rw [if_neg, hrest]
      intro hstart
      refine hend (List.prefix_of_prefix_length_le (List.isPrefixOf_iff_prefix.mp hstart)
        (List.prefix_append (c :: t) more) ?_)
      simp only [List.length_cons, List.length_nil]
      omega

/-- What follows the head does not matter. -/
theorem fetchHead_append {reply head : Text} (h : fetchHead reply = some head) (more : Text) :
    fetchHead (reply ++ more) = some head := by
  obtain ⟨e, he, rfl⟩ := Option.map_eq_some_iff.mp h
  obtain ⟨hmore, -, hle⟩ := headersEndFrom_append he more
  rw [fetchHead, httpHeadersEnd, hmore, Option.map_some, List.take_append_of_le_length (by omega)]

/-- **The client reads the lines of its fields alone** exactly when neither is read inside a line
before the first of its lines. -/
theorem readsOwnLines_iff (abi : Abi) (reply : Text) :
    ReadsOwnLines abi reply ↔ ∀ head, fetchHead reply = some head →
      ¬ Stray isLengthHit head ∧ ¬ Stray isCodingHit head := by
  constructor
  · intro h head hhead
    exact ⟨(firstHit_eq_find_iff rfl head).mp (h.length head hhead).1,
      (firstHit_eq_find_iff rfl head).mp (h.coding head hhead).1⟩
  · intro h
    refine ⟨fun head hhead => ?_, fun head hhead => ?_, fun head more hhead =>
      fetchHead_append hhead more⟩
    · have hplace := (firstHit_eq_find_iff rfl head).mpr (h head hhead).1
      refine ⟨hplace, ?_⟩
      rw [httpContentLength_eq, hplace, lengths_eq]
      cases (starts head).find? isLengthHit <;> rfl
    · have hplace := (firstHit_eq_find_iff rfl head).mpr (h head hhead).2
      refine ⟨hplace, ?_⟩
      have hcoding := codings_eq head
      rw [httpIsChunked_eq, hplace]
      cases hfield : (fieldTexts "transfer-encoding" head).head? with
      | none =>
        rw [hfield, Option.map_none, eq_comm, Option.map_eq_none_iff] at hcoding
        rw [hcoding]
        rfl
      | some v =>
        rw [hfield, Option.map_some, eq_comm, Option.map_eq_some_iff] at hcoding
        obtain ⟨t, ht, hv⟩ := hcoding
        rw [ht, Option.any_some]
        exact hv

/-- The length of another field is taken. -/
theorem readsOwnLines_suffix : ¬ ∀ abi reply, ReadsOwnLines abi reply := by
  intro h
  have hown := h ⟨64, Or.inr rfl⟩
    "HTTP/1.1 200 OK\r\nX-Content-Length: 9\r\nContent-Length: 5\r\n\r\nhello".toList
  have hlength := (hown.length
    "HTTP/1.1 200 OK\r\nX-Content-Length: 9\r\nContent-Length: 5\r\n\r\n".toList
    (by decide)).2
  revert hlength
  decide

end Runtime.Fetch
