import Orbit.Stdlib.RegexSyntax

/-!
# Classes

The validator reads a class as its items (`classEnd_render`, `classEnd_items`), and the matcher finds
the characters that they have where the class is clear (`classHit_items`). In any class it takes a
hyphen between two characters for a range, so that the class may lose the hyphen and gain what is
between the two (`classHit_readings`, `readings_has`).
-/

namespace Regex

@[simp] theorem renderItems_nil : renderItems [] = [] := rfl

@[simp] theorem renderItems_cons (item : ClassItem) (items : List ClassItem) :
    renderItems (item :: items) = item.render ++ renderItems items := rfl

/-! ## Reading the text of a class -/

/-- A character that begins no range. -/
theorem classEnd_char {n i : Nat} {plain : Option Char} {c : Char} {t : Text} (hc : c ≠ ']')
    (hc' : c ≠ '\\') (hends : c = '-' → plain ≠ none → ∀ hi ∈ t.head?, hi = ']' ∨ hi = '\\') :
    classEnd 0 n plain i (c :: t) =
      classEnd 0 (n + 1) (if c = '-' then none else some c) (i + 1) t := by
  rw [classEnd_cons, if_neg hc, if_neg hc', if_neg]
  rintro ⟨rfl, hp, hne, hh, hh'⟩
  obtain ⟨hi, u, rfl⟩ := List.exists_cons_of_ne_nil hne
  rcases hends rfl hp hi rfl with h | h
  · exact hh h
  · exact hh' h

theorem classEnd_upTo {n i : Nat} {lo hi : Char} {t : Text} (hh : hi ≠ ']') (hh' : hi ≠ '\\')
    (hle : lo ≤ hi) :
    classEnd 0 n (some lo) i ('-' :: hi :: t) = classEnd 0 (n + 1) none (i + 2) t := by
  rw [classEnd_cons, if_neg (by decide), if_neg (by decide),
    if_pos ⟨rfl, nofun, List.cons_ne_nil _ _, hh, hh'⟩]
  exact if_neg (Char.not_lt.mpr hle)

theorem classEnd_esc {n i : Nat} {plain : Option Char} {e : Char} {t : Text}
    (he : isClassEscape e = true) :
    classEnd 0 n plain i ('\\' :: e :: t) = classEnd 0 (n + 1) none (i + 2) t := by
  rw [classEnd_cons, if_neg (by decide), if_pos rfl]
  exact if_pos he

theorem hyphenEnds_head {items : List ClassItem} (h : hyphenEnds items) (rest : Text) :
    ∀ hi ∈ (renderItems items ++ ']' :: rest).head?, hi = ']' ∨ hi = '\\' := by
  intro hi hhi
  cases items with
  | nil => exact .inl (Option.some.inj hhi).symm
  | cons item items =>
    cases item with
    | esc e => exact .inr (Option.some.inj hhi).symm
    | char c => exact h.elim
    | upTo lo hi => exact h.elim

/-- The items of a class that is not negated do not begin with the sign of one that is. -/
theorem renderItems_head {items : List ClassItem} (hne : items ≠ [])
    (hhat : items.head? ≠ some (.char '^')) (hitems : Items none items) (rest : Text) :
    (renderItems items ++ rest).headD nul ≠ '^' := by
  cases items with
  | nil => exact absurd rfl hne
  | cons item items =>
    cases item with
    | char c => exact fun hc => hhat (by rw [show c = '^' from hc]; rfl)
    | upTo lo hi => exact absurd hitems.1 nofun
    | esc e => exact fun hc => absurd (show '\\' = '^' from hc) (by decide)

/-- **The validator reads the items of a class up to its bracket.** -/
theorem classEnd_render (rest : Text) {n i : Nat} {plain : Option Char} {items : List ClassItem}
    (h : Items plain items) (hn : n > 0 ∨ items ≠ []) :
    classEnd 0 n plain i (renderItems items ++ ']' :: rest) =
      some (i + (renderItems items).length + 1) := by
  induction items generalizing n plain i with
  | nil =>
    rcases hn with hn | hn
    · rw [renderItems_nil, List.nil_append, classEnd_cons, if_pos rfl, if_pos hn]
      rfl
    · exact absurd rfl hn
  | cons item items ih =>
    rw [renderItems_cons, List.append_assoc, List.length_append]
    cases item with
    | char c =>
      obtain ⟨hc, hc', hends, hitems⟩ := h
      refine (classEnd_char hc hc' fun heq hp => hyphenEnds_head (hends heq hp) rest).trans ?_
      rw [ih hitems (.inl (Nat.succ_pos n))]
      simp only [ClassItem.render, List.length_singleton]
      congr 1
      omega
    | upTo lo hi =>
      obtain ⟨rfl, hh, hh', hle, hitems⟩ := h
      refine (classEnd_upTo hh hh' hle).trans ?_
      rw [List.append_eq, List.nil_append, ih hitems (.inl (Nat.succ_pos n))]
      simp only [ClassItem.render, List.length_cons, List.length_nil]
      congr 1
      omega
    | esc e =>
      refine (classEnd_esc h.1).trans ?_
      rw [List.append_eq, List.nil_append, ih h.2 (.inl (Nat.succ_pos n))]
      simp only [ClassItem.render, List.length_cons, List.length_nil]
      congr 1
      omega

/-- **What the validator reads as the rest of a class are items and a bracket.** -/
theorem classEnd_items {n i k : Nat} {plain : Option Char} {s : Text}
    (h : classEnd 0 n plain i s = some k) : ∃ items rest, Items plain items ∧
      (n > 0 ∨ items ≠ []) ∧ s = renderItems items ++ ']' :: rest ∧
      k = i + (renderItems items).length + 1 := by
  induction hm : s.length using Nat.strongRecOn generalizing n i plain s with
  | ind m ih =>
    subst hm
    cases s with
    | nil => cases h
    | cons c t =>
      rw [classEnd_cons] at h
      split at h
      · next hc =>
        split at h
        · next hn =>
          exact ⟨[], t, trivial, .inl hn, by rw [hc]; rfl, (Option.some.inj h).symm⟩
        · cases h
      · next hc =>
        split at h
        · next hc' =>
          split at h
          · next he =>
            cases t with
            | nil => exact absurd he (by decide)
            | cons e u =>
              obtain ⟨items, rest, hitems, -, hu, hk⟩ :=
                ih u.length (by simp only [List.length_cons]; omega) h rfl
              refine ⟨.esc e :: items, rest, ⟨he, hitems⟩, .inr (List.cons_ne_nil _ _), ?_, ?_⟩
              · rw [hc', hu]
                rfl
              · rw [hk, renderItems_cons, List.length_append]
                simp only [ClassItem.render, List.length_cons, List.length_nil]
                omega
          · cases h
        · next hc' =>
          split at h
          · next hrange =>
            obtain ⟨rfl, hp, hne, hh, hh'⟩ := hrange
            obtain ⟨lo, rfl⟩ := Option.ne_none_iff_exists'.mp hp
            obtain ⟨hi, u, rfl⟩ := List.exists_cons_of_ne_nil hne
            split at h
            · cases h
            · next hlt =>
              obtain ⟨items, rest, hitems, -, hu, hk⟩ :=
                ih u.length (by simp only [List.length_cons]; omega) h rfl
              refine ⟨.upTo lo hi :: items, rest, ⟨rfl, hh, hh', Char.not_lt.mp hlt, hitems⟩,
                .inr (List.cons_ne_nil _ _), ?_, ?_⟩
              · rw [hu]
                rfl
              · rw [hk, renderItems_cons, List.length_append]
                simp only [ClassItem.render, List.length_cons, List.length_nil]
                omega
          · next hrange =>
            obtain ⟨items, rest, hitems, -, ht, hk⟩ :=
              ih t.length (by simp only [List.length_cons]; omega) h rfl
            refine ⟨.char c :: items, rest, ⟨hc, hc', fun hh hp => ?_, hitems⟩,
              .inr (List.cons_ne_nil _ _), ?_, ?_⟩
            · -- no range begins here, so a bracket or an escape follows
              rw [ht] at hrange
              cases items with
              | nil => trivial
              | cons item items =>
                cases item with
                | esc e => trivial
                | char d =>
                  exact hrange ⟨hh, hp, List.cons_ne_nil _ _, hitems.1, hitems.2.1⟩
                | upTo lo hi =>
                  rw [if_pos hh] at hitems
                  cases hitems.1
            · rw [ht]
              rfl
            · rw [hk, renderItems_cons, List.length_append]
              simp only [ClassItem.render, List.length_cons, List.length_nil]
              omega

/-! ## Matching a class -/

/-- A character that the matcher takes for itself. -/
theorem classHit_char {t c : Char} {prev : Option Char} {items : List ClassItem} (hc : c ≠ '\\')
    (hclear : c = '-' → prev = none ∨ prev = some '\\' ∨ hyphenEnds items) :
    classHit t 0 prev (c :: renderItems items) =
      (decide (t = c) || classHit t 0 (some c) (renderItems items)) := by
  rw [classHit_cons, if_neg hc, if_neg]
  rintro ⟨heq, hp, hne, hlo, hhi, -⟩
  rcases hclear heq with rfl | rfl | hends
  · exact hp rfl
  · exact hlo rfl
  · cases items with
    | nil => exact hne rfl
    | cons item items =>
      cases item with
      | esc e => exact hhi rfl
      | char d => exact hends.elim
      | upTo lo hi => exact hends.elim

/-- **The matcher finds the characters of a clear class.** -/
theorem classHit_items (t : Char) {plain prev : Option Char} {items : List ClassItem}
    (hitems : Items plain items) (hclear : Clear prev items)
    (hplain : ∀ lo, plain = some lo → prev = some lo ∧ lo ≠ '\\') :
    classHit t 0 prev (renderItems items) = items.any (·.has t) := by
  induction items generalizing plain prev with
  | nil => rfl
  | cons item items ih =>
    rw [renderItems_cons, List.any_cons]
    cases item with
    | char c =>
      obtain ⟨-, hc, -, hrest⟩ := hitems
      obtain ⟨hhyphen, hclear⟩ := hclear
      refine (classHit_char hc hhyphen).trans ?_
      rw [ih hrest hclear]
      · rfl
      · intro lo hlo
        split at hlo
        · cases hlo
        · rw [← Option.some.inj hlo]
          exact ⟨rfl, hc⟩
    | upTo lo hi =>
      obtain ⟨hlo, hh, hh', hle, hrest⟩ := hitems
      obtain ⟨hhyphen, hclear⟩ := hclear
      obtain ⟨rfl, hlo'⟩ := hplain lo hlo
      have hhi : classHit t 0 (some '-') (hi :: renderItems items) =
          (decide (t = hi) || classHit t 0 (some hi) (renderItems items)) :=
        classHit_char hh' fun h => .inr (.inr (hhyphen h))
      rw [ih hrest hclear nofun] at hhi
      change classHit t 0 (some lo) ('-' :: hi :: renderItems items) = _
      rw [classHit_cons, if_neg (by decide), if_pos ⟨rfl, nofun, List.cons_ne_nil _ _, hlo', hh', hh⟩,
        hhi]
      have hhas : (ClassItem.upTo lo hi).has t = (decide (lo ≤ t) && decide (t ≤ hi)) := rfl
      rw [hhas]
      change ((decide (lo ≤ t) && decide (t ≤ hi)) || (decide (t = hi) || _)) = _
      by_cases ht : t = hi
      · -- the upper end is read twice
        rw [ht, decide_eq_true hle, decide_eq_true (Char.le_refl hi), Bool.and_self, Bool.true_or,
          Bool.true_or]
      · rw [decide_eq_false ht, Bool.false_or]
    | esc e =>
      change classHit t 0 prev ('\\' :: e :: renderItems items) = _
      rw [classHit_cons, if_pos rfl, classHit_skip, ih hitems.2 hclear nofun]
      rfl

/-! ## Hyphens that the matcher takes for ranges -/

/-- A hyphen as the matcher reads it, with the character before and the text behind. -/
def hyphenAs (prev : Option Char) (next : Text) : ClassItem :=
  if prev ≠ none ∧ next ≠ [] ∧ prev.getD nul ≠ '\\' ∧ next.headD nul ≠ '\\' ∧ next.headD nul ≠ ']'
  then .upTo (prev.getD nul) (next.headD nul)
  else .char '-'

/-- A character as the matcher reads it. -/
def charAs (c : Char) (prev : Option Char) (next : Text) : ClassItem :=
  if c = '-' then hyphenAs prev next else .char c

/-- What the matcher reads in a class. The upper end of a range is read once more, for itself. -/
def readings : (prev : Option Char) → List ClassItem → List ClassItem
  | _, [] => []
  | prev, .char c :: items => charAs c prev (renderItems items) :: readings (some c) items
  | _, .upTo lo hi :: items =>
    .upTo lo hi :: charAs hi (some '-') (renderItems items) :: readings (some hi) items
  | _, .esc e :: items => .esc e :: readings (some e) items

theorem classHit_charAs {t c : Char} {prev : Option Char} {next : Text} (hc : c ≠ '\\') :
    classHit t 0 prev (c :: next) = ((charAs c prev next).has t || classHit t 0 (some c) next) := by
  rw [classHit_cons, if_neg hc]
  unfold charAs hyphenAs
  by_cases hyphen : c = '-'
  · rw [if_pos hyphen]
    simp only [hyphen, true_and]
    split <;> rfl
  · rw [if_neg hyphen, if_neg fun h => hyphen h.1]
    rfl

/-- **The matcher finds the characters of its readings**, in any class that the validator accepts. -/
theorem classHit_readings (t : Char) {plain prev : Option Char} {items : List ClassItem}
    (hitems : Items plain items) (hplain : ∀ lo, plain = some lo → prev = some lo ∧ lo ≠ '\\') :
    classHit t 0 prev (renderItems items) = (readings prev items).any (·.has t) := by
  induction items generalizing plain prev with
  | nil => rfl
  | cons item items ih =>
    rw [renderItems_cons]
    cases item with
    | char c =>
      change classHit t 0 prev (c :: renderItems items) = _
      rw [classHit_charAs hitems.2.1, ih hitems.2.2.2]
      · rfl
      · intro lo hlo
        split at hlo
        · cases hlo
        · rw [← Option.some.inj hlo]
          exact ⟨rfl, hitems.2.1⟩
    | upTo lo hi =>
      obtain ⟨hlo, hh, hh', hle, hrest⟩ := hitems
      obtain ⟨rfl, hlo'⟩ := hplain lo hlo
      change classHit t 0 (some lo) ('-' :: hi :: renderItems items) = _
      rw [classHit_cons, if_neg (by decide), if_pos ⟨rfl, nofun, List.cons_ne_nil _ _, hlo', hh', hh⟩,
        classHit_charAs hh', ih hrest nofun]
      rfl
    | esc e =>
      change classHit t 0 prev ('\\' :: e :: renderItems items) = _
      rw [classHit_cons, if_pos rfl, classHit_skip, ih hitems.2 nofun]
      rfl

/-- The hyphen is all that a class can lose. -/
theorem readings_lose {t : Char} (ht : t ≠ '-') (prev : Option Char) {items : List ClassItem}
    (h : items.any (·.has t) = true) : (readings prev items).any (·.has t) = true := by
  induction items generalizing prev with
  | nil => exact nomatch h
  | cons item items ih =>
    rw [List.any_cons, Bool.or_eq_true] at h
    cases item with
    | char c =>
      refine Bool.or_eq_true_iff.mpr (h.imp (fun h => ?_) (ih (some c)))
      have htc : t = c := of_decide_eq_true h
      unfold charAs
      rw [if_neg (htc ▸ ht)]
      exact h
    | upTo lo hi =>
      refine Bool.or_eq_true_iff.mpr (h.imp id fun h => ?_)
      exact Bool.or_eq_true_iff.mpr (.inr (ih (some hi) h))
    | esc e => exact Bool.or_eq_true_iff.mpr (h.imp id (ih (some e)))

/-- **A class that the validator accepts means the same to the matcher** if and only if every reading
of the matcher lies in it and the hyphen, if it is in the class, in one of them. -/
theorem class_agrees_iff {items : List ClassItem} (h : Items none items) :
    (∀ t, classHit t 0 none (renderItems items) = items.any (·.has t)) ↔
      (∀ r ∈ readings none items, ∀ t, r.has t = true → items.any (·.has t) = true) ∧
        (items.any (·.has '-') = true → (readings none items).any (·.has '-') = true) := by
  have hread (t : Char) :
      classHit t 0 none (renderItems items) = (readings none items).any (·.has t) :=
    classHit_readings t h nofun
  constructor
  · intro heq
    refine ⟨fun r hr t ht => ?_, fun hhyphen => ?_⟩
    · rw [← heq, hread]
      exact List.any_eq_true.mpr ⟨r, hr, ht⟩
    · rw [← hread, heq]
      exact hhyphen
  · rintro ⟨hgain, hlose⟩ t
    rw [hread, Bool.eq_iff_iff]
    constructor
    · intro ht
      obtain ⟨r, hr, hrt⟩ := List.any_eq_true.mp ht
      exact hgain r hr t hrt
    · intro ht
      by_cases hyphen : t = '-'
      · rw [hyphen] at ht ⊢
        exact hlose ht
      · exact readings_lose hyphen none ht

/-- `[a-c-e]` has the hyphen and not `d`, but the matcher finds `d` and no hyphen. -/
theorem class_agrees_iff_second :
    let items : List ClassItem := [.char 'a', .upTo 'a' 'c', .char '-', .char 'e']
    ¬ ∀ t, classHit t 0 none (renderItems items) = items.any (·.has t) := by
  intro items h
  have hitems : Items none items :=
    ⟨by decide, by decide, nofun, rfl, by decide, by decide, by decide, by decide, by decide,
      fun _ h => absurd rfl h, by decide, by decide, nofun, trivial⟩
  exact absurd (((class_agrees_iff hitems).mp h).2 rfl) (by decide)

end Regex
