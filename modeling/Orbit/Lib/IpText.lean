import Mathlib.Algebra.Group.Nat.Defs
import Mathlib.Data.List.Basic
import Orbit.Lib.Find

/-!
# Texts of internet addresses

The four decimal octets of one kind of address, and the groups of hexadecimal digits of the other: 16
bits each, the last two of which may be written as octets, and with `::` for a run of groups that are
zero. A reading is a text in its parts; a text in the standard form has one (`readText_text`).
-/

namespace Lib.IpText

open Lib.Find (indexOf)

abbrev Text := List Char

/-! ## Numerals -/

def decimal (c : Char) : Option Nat :=
  if '0' ≤ c ∧ c ≤ '9' then some (c.toNat - '0'.toNat) else none

def hexadecimal (c : Char) : Option Nat :=
  if '0' ≤ c ∧ c ≤ '9' then some (c.toNat - '0'.toNat)
  else if 'a' ≤ c ∧ c ≤ 'f' then some (c.toNat - 'a'.toNat + 10)
  else if 'A' ≤ c ∧ c ≤ 'F' then some (c.toNat - 'A'.toNat + 10)
  else none

/-- The number of a text of digits, after a number already read. -/
def numeralFrom (base : Nat) (digit : Char → Option Nat) : Nat → Text → Option Nat
  | n, [] => some n
  | n, c :: t =>
    match digit c with
    | none => none
    | some d => numeralFrom base digit (n * base + d) t

theorem numeralFrom_cons (base : Nat) (digit : Char → Option Nat) (n : Nat) (c : Char) (t : Text) :
    numeralFrom base digit n (c :: t) =
      match digit c with
      | none => none
      | some d => numeralFrom base digit (n * base + d) t := rfl

def octet (a : Text) : Option Nat := numeralFrom 10 decimal 0 a
def group (g : Text) : Option Nat := numeralFrom 16 hexadecimal 0 g

theorem le_numeralFrom {base : Nat} (hb : 1 ≤ base) {digit : Char → Option Nat} {n v : Nat}
    {t : Text} (h : numeralFrom base digit n t = some v) : n ≤ v := by
  induction t generalizing n with
  | nil => exact Nat.le_of_eq (Option.some.inj h)
  | cons c t ih =>
    rw [numeralFrom_cons] at h
    cases hc : digit c with
    | none =>
      rw [hc] at h
      cases h
    | some d =>
      rw [hc] at h
      have hle := Nat.le_mul_of_pos_right n hb
      have := ih h
      omega

theorem digit_of_mem {base : Nat} {digit : Char → Option Nat} {n v : Nat} {t : Text}
    (h : numeralFrom base digit n t = some v) {c : Char} (hc : c ∈ t) : digit c ≠ none := by
  induction t generalizing n with
  | nil => cases hc
  | cons a t ih =>
    rw [numeralFrom_cons] at h
    cases ha : digit a with
    | none =>
      rw [ha] at h
      cases h
    | some d =>
      rw [ha] at h
      rcases List.mem_cons.mp hc with rfl | hc
      · rw [ha]
        exact Option.some_ne_none d
      · exact ih h hc

/-- A number of at most `k` digits. -/
theorem numeralFrom_lt {base : Nat} {digit : Char → Option Nat}
    (hdigit : ∀ c d, digit c = some d → d < base) {n v : Nat} {t : Text}
    (h : numeralFrom base digit n t = some v) : v < (n + 1) * base ^ t.length := by
  induction t generalizing n with
  | nil =>
    rw [← Option.some.inj h, List.length_nil, Nat.pow_zero, Nat.mul_one]
    exact Nat.lt_succ_self n
  | cons c t ih =>
    rw [numeralFrom_cons] at h
    cases hc : digit c with
    | none =>
      rw [hc] at h
      cases h
    | some d =>
      rw [hc] at h
      have hd := hdigit c d hc
      calc v < (n * base + d + 1) * base ^ t.length := ih h
        _ ≤ ((n + 1) * base) * base ^ t.length :=
            Nat.mul_le_mul_right _ (by rw [Nat.succ_mul]; omega)
        _ = (n + 1) * base ^ (c :: t).length := by
            rw [List.length_cons, Nat.pow_succ, Nat.mul_assoc, Nat.mul_comm base]

theorem hexadecimal_lt {c : Char} {d : Nat} (h : hexadecimal c = some d) : d < 16 := by
  rw [hexadecimal] at h
  split_ifs at h with hdec hlow hupp
  · have : c.toNat ≤ '9'.toNat := hdec.2
    rw [← Option.some.inj h]
    change c.toNat ≤ 57 at this
    change c.toNat - 48 < 16
    omega
  · have : c.toNat ≤ 'f'.toNat := hlow.2
    rw [← Option.some.inj h]
    change c.toNat ≤ 102 at this
    change c.toNat - 97 + 10 < 16
    omega
  · have : c.toNat ≤ 'F'.toNat := hupp.2
    rw [← Option.some.inj h]
    change c.toNat ≤ 70 at this
    change c.toNat - 65 + 10 < 16
    omega

/-! ## Readings -/

/-- Groups, and the octets that may follow them. -/
structure Span where
  groups : List Text
  quad : Option (List Text)
  deriving DecidableEq, Repr

inductive Reading where
  | v4 (octets : List Text)
  | full (s : Span)
  | compressed (head tail : Span)
  deriving DecidableEq, Repr

def quadText (octets : List Text) : Text := ['.'].intercalate octets

def Span.parts (s : Span) : List Text := s.groups ++ (s.quad.map quadText).toList

def Span.text (s : Span) : Text := [':'].intercalate s.parts

def Reading.text : Reading → Text
  | .v4 octets => quadText octets
  | .full s => s.text
  | .compressed head tail => head.text ++ ':' :: ':' :: tail.text

def readSpan (p : Text) : Span :=
  if p = [] then ⟨[], none⟩
  else
    let parts := p.splitOn ':'
    match parts.getLast? with
    | none => ⟨[], none⟩
    | some last =>
      if '.' ∈ last then ⟨parts.dropLast, some (last.splitOn '.')⟩ else ⟨parts, none⟩

theorem readSpan_of_ne {p : Text} (h : p ≠ []) :
    readSpan p =
      match (p.splitOn ':').getLast? with
      | none => ⟨[], none⟩
      | some last =>
        if '.' ∈ last then ⟨(p.splitOn ':').dropLast, some (last.splitOn '.')⟩
        else ⟨p.splitOn ':', none⟩ := if_neg h

/-- The parts of a text. -/
def readText (t : Text) : Reading :=
  if ':' ∈ t then
    match indexOf [':', ':'] t with
    | none => .full (readSpan t)
    | some sep => .compressed (readSpan (t.take sep)) (readSpan (t.drop (sep + 2)))
  else .v4 (t.splitOn '.')

theorem text_readSpan (p : Text) : (readSpan p).text = p := by
  by_cases hp : p = []
  · rw [hp]
    rfl
  · have hjoin : [':'].intercalate (p.splitOn ':') = p := List.intercalate_splitOn ':'
    rw [readSpan_of_ne hp]
    generalize p.splitOn ':' = parts at hjoin
    cases hlast : parts.getLast? with
    | none =>
      rw [List.getLast?_eq_none_iff.mp hlast] at hjoin
      exact hjoin
    | some last =>
      obtain ⟨init, rfl⟩ := List.getLast?_eq_some_iff.mp hlast
      dsimp only
      split_ifs
      · rw [Span.text, Span.parts, List.dropLast_concat, Option.map_some, Option.toList_some, quadText,
          List.intercalate_splitOn, hjoin]
      · rw [Span.text, Span.parts, Option.map_none, Option.toList_none, List.append_nil, hjoin]

theorem readSpan_single {p : Text} (hp : p ≠ []) (hcolon : ':' ∉ p) :
    readSpan p = if '.' ∈ p then ⟨[], some (p.splitOn '.')⟩ else ⟨[p], none⟩ := by
  rw [readSpan_of_ne hp, List.splitOn_eq_singleton hcolon]
  rfl

/-- A part before a colon is a group. -/
theorem readSpan_group {g : Text} (hcolon : ':' ∉ g) (next : Text) :
    readSpan (g ++ ':' :: next) =
      if next = [] then ⟨[g, []], none⟩
      else ⟨g :: (readSpan next).groups, (readSpan next).quad⟩ := by
  have hne : g ++ ':' :: next ≠ [] := List.append_ne_nil_of_right_ne_nil g (List.cons_ne_nil _ _)
  rw [readSpan_of_ne hne, List.splitOn_append_cons_self_of_not_mem hcolon]
  split_ifs with hnext
  · rw [hnext]
    rfl
  · rw [readSpan_of_ne hnext]
    obtain ⟨init, last, hparts⟩ := (List.eq_nil_or_concat' (next.splitOn ':')).resolve_left
      (List.splitOn_ne_nil ':' next)
    rw [hparts, ← List.cons_append, List.getLast?_concat, List.getLast?_concat]
    dsimp only
    split_ifs
    · rw [List.dropLast_concat, List.dropLast_concat]
    · rfl

/-- A text is that of its reading. -/
theorem text_readText (t : Text) : (readText t).text = t := by
  rw [readText]
  split_ifs with hcolon
  · cases hsep : indexOf [':', ':'] t with
    | none => exact text_readSpan t
    | some sep =>
      obtain ⟨⟨rest, hrest⟩, -⟩ := Lib.Find.indexOf_some hsep
      dsimp only
      rw [Reading.text, text_readSpan, text_readSpan, ← List.drop_drop, ← hrest]
      conv_rhs => rw [← List.take_append_drop sep t, ← hrest]
      rfl
  · exact List.intercalate_splitOn '.'

/-! ## One reading -/

/-- Parts that a colon can separate. -/
def Clean (parts : List Text) : Prop := ∀ p ∈ parts, p ≠ [] ∧ ':' ∉ p

theorem Clean.indexOf {parts : List Text} (h : Clean parts) (u : Text) :
    indexOf [':', ':'] ([':'].intercalate parts ++ u) =
      (indexOf [':', ':'] u).map (· + ([':'].intercalate parts).length) := by
  induction parts with
  | nil => simp
  | cons p parts ih =>
    have hp := (h p List.mem_cons_self).2
    cases parts with
    | nil => rw [List.intercalate_singleton, Lib.Find.indexOf_skip hp]
    | cons q parts =>
      have hrest := ih fun x hx => h x (List.mem_cons_of_mem _ hx)
      obtain ⟨hq, hcolon⟩ := h q (List.mem_cons_of_mem _ List.mem_cons_self)
      obtain ⟨c, q, rfl⟩ := List.exists_cons_of_ne_nil hq
      have hc : c ≠ ':' := fun hc => hcolon (by rw [hc]; exact List.mem_cons_self)
      have hmiss : ¬ [':', ':'] <+: ':' :: ([':'].intercalate ((c :: q) :: parts) ++ u) := by
        rw [List.intercalate_cons_cons_left, List.cons_append, List.cons_prefix_cons,
          List.cons_prefix_cons]
        exact fun hx => hc hx.2.1.symm
      rw [List.intercalate_cons_cons, List.append_assoc, List.append_assoc, List.singleton_append,
        Lib.Find.indexOf_skip hp, Lib.Find.indexOf_cons_of_miss hmiss, hrest, Option.map_map,
        Option.map_map]
      congr 1
      funext k
      simp only [Function.comp_apply, List.length_append, List.length_singleton]
      omega

/-- Octets that a dot can separate, at least two of them. -/
def Dotted (octets : List Text) : Prop := 2 ≤ octets.length ∧ ∀ a ∈ octets, '.' ∉ a ∧ ':' ∉ a

theorem mem_intercalate {sep : Char} {parts : List Text} {c : Char}
    (h : c ∈ [sep].intercalate parts) : c = sep ∨ ∃ p ∈ parts, c ∈ p := by
  induction parts with
  | nil => cases h
  | cons p parts ih =>
    cases parts with
    | nil =>
      rw [List.intercalate_singleton] at h
      exact .inr ⟨p, List.mem_cons_self, h⟩
    | cons q parts =>
      rw [List.intercalate_cons_cons, List.append_assoc, List.mem_append, List.singleton_append,
        List.mem_cons] at h
      rcases h with h | h | h
      · exact .inr ⟨p, List.mem_cons_self, h⟩
      · exact .inl h
      · exact (ih h).imp id fun ⟨x, hx, hc⟩ => ⟨x, List.mem_cons_of_mem _ hx, hc⟩

theorem Dotted.text {octets : List Text} (h : Dotted octets) :
    '.' ∈ quadText octets ∧ ':' ∉ quadText octets ∧ (quadText octets).splitOn '.' = octets := by
  obtain ⟨hlen, hall⟩ := h
  refine ⟨?_, fun hcolon => ?_, List.splitOn_intercalate '.' (fun a ha => (hall a ha).1) ?_⟩
  · match octets, hlen with
    | a :: b :: octets, _ =>
      rw [quadText, List.intercalate_cons_cons]
      simp
  · rcases mem_intercalate hcolon with hsep | ⟨a, ha, hc⟩
    · cases hsep
    · exact (hall a ha).2 hc
  · rintro rfl
    cases hlen

/-- A span that is read back: groups between colons, then octets between dots. -/
structure Span.Plain (s : Span) : Prop where
  groups : ∀ g ∈ s.groups, g ≠ [] ∧ ':' ∉ g ∧ '.' ∉ g
  quad : ∀ q ∈ s.quad, Dotted q

theorem Span.Plain.clean {s : Span} (h : s.Plain) : Clean s.parts := by
  intro p hp
  rcases List.mem_append.mp hp with hp | hp
  · obtain ⟨hne, hcolon, -⟩ := h.groups p hp
    exact ⟨hne, hcolon⟩
  · obtain ⟨q, hq, rfl⟩ := Option.map_eq_some_iff.mp (Option.mem_toList.mp hp)
    obtain ⟨hdot, hcolon, -⟩ := (h.quad q hq).text
    exact ⟨List.ne_nil_of_mem hdot, hcolon⟩

theorem readSpan_text {s : Span} (h : s.Plain) : readSpan s.text = s := by
  have hclean := h.clean
  obtain ⟨groups, quad⟩ := s
  by_cases hnone : (Span.mk groups quad).parts = []
  · rw [Span.text, hnone]
    obtain ⟨rfl, hquad⟩ := List.append_eq_nil_iff.mp hnone
    cases quad with
    | none => rfl
    | some q => cases hquad
  · have hsplit : (Span.mk groups quad).text.splitOn ':' = (Span.mk groups quad).parts :=
      List.splitOn_intercalate ':' (fun p hp => (hclean p hp).2) hnone
    have hne : (Span.mk groups quad).text ≠ [] := by
      intro htext
      rw [htext, List.splitOn_nil] at hsplit
      exact (hclean [] (hsplit ▸ List.mem_singleton_self [])).1 rfl
    rw [readSpan_of_ne hne]
    rw [hsplit]
    cases quad with
    | some q =>
      obtain ⟨hdot, -, hback⟩ := (h.quad q rfl).text
      rw [Span.parts, Option.map_some, Option.toList_some, List.getLast?_concat]
      dsimp only
      rw [if_pos hdot, List.dropLast_concat, hback]
    | none =>
      rw [Span.parts, Option.map_none, Option.toList_none, List.append_nil] at hnone ⊢
      dsimp only at hnone ⊢
      rw [List.getLast?_eq_some_getLast hnone]
      dsimp only
      rw [if_neg (h.groups _ (List.getLast_mem hnone)).2.2]

/-- A reading that is read back. -/
def Reading.Plain : Reading → Prop
  | .v4 octets => octets ≠ [] ∧ ∀ a ∈ octets, '.' ∉ a ∧ ':' ∉ a
  | .full s => s.Plain ∧ 2 ≤ s.parts.length
  | .compressed head tail => head.Plain ∧ tail.Plain

/-- **A plain reading is the reading of its text.** -/
theorem readText_text {r : Reading} (h : r.Plain) : readText r.text = r := by
  cases r with
  | v4 octets =>
    obtain ⟨hne, hall⟩ := h
    have hcolon : ':' ∉ quadText octets := by
      intro hc
      rcases mem_intercalate hc with hsep | ⟨a, ha, hc⟩
      · cases hsep
      · exact (hall a ha).2 hc
    rw [Reading.text, readText, if_neg hcolon, quadText,
      List.splitOn_intercalate '.' (fun a ha => (hall a ha).1) hne]
  | full s =>
    obtain ⟨hplain, hlen⟩ := h
    have hcolon : ':' ∈ s.text := by
      rw [Span.text]
      match s.parts, hlen with
      | p :: q :: parts, _ =>
        rw [List.intercalate_cons_cons]
        simp
    have hnone := hplain.clean.indexOf []
    rw [List.append_nil, ← Span.text] at hnone
    rw [Reading.text, readText, if_pos hcolon, hnone]
    change Reading.full (readSpan s.text) = _
    rw [readSpan_text hplain]
  | compressed head tail =>
    obtain ⟨hhead, htail⟩ := h
    have hcolon : ':' ∈ head.text ++ ':' :: ':' :: tail.text := by simp
    have hsep := hhead.clean.indexOf (':' :: ':' :: tail.text)
    have hhit : indexOf [':', ':'] (':' :: ':' :: tail.text) = some 0 :=
      Lib.Find.indexOf_of_match ⟨tail.text, rfl⟩
    rw [hhit, ← Span.text, Option.map_some, Nat.zero_add] at hsep
    rw [Reading.text, readText, if_pos hcolon, hsep]
    dsimp only
    rw [List.take_left, ← List.drop_drop, List.drop_left]
    change Reading.compressed (readSpan head.text) (readSpan tail.text) = _
    rw [readSpan_text hhead, readSpan_text htail]

/-! ## The standard form -/

/-- A decimal number up to 255, of one to three digits. -/
def StandardOctet (a : Text) : Prop :=
  1 ≤ a.length ∧ a.length ≤ 3 ∧ ∃ v, octet a = some v ∧ v ≤ 255

/-- One to four hexadecimal digits. -/
def StandardGroup (g : Text) : Prop := 1 ≤ g.length ∧ g.length ≤ 4 ∧ ∃ v, group g = some v

def StandardQuad (octets : List Text) : Prop := octets.length = 4 ∧ ∀ a ∈ octets, StandardOctet a

/-- The bytes that a span stands for. -/
def Span.width (s : Span) : Nat := 2 * s.groups.length + if s.quad.isSome then 4 else 0

structure Span.Standard (s : Span) : Prop where
  groups : ∀ g ∈ s.groups, StandardGroup g
  quad : ∀ q ∈ s.quad, StandardQuad q

/-- The standard form: four octets; 16 bytes of groups, and octets for the last four of them if one
likes; or less than that, with `::` once for the groups that are missing, which is one at least. -/
def Reading.Standard : Reading → Prop
  | .v4 octets => StandardQuad octets
  | .full s => s.Standard ∧ s.width = 16
  | .compressed head tail =>
    head.Standard ∧ head.quad = none ∧ tail.Standard ∧ head.width + tail.width ≤ 14

/-- The number that four octets stand for. -/
def quadValue (octets : List Text) : Nat :=
  octets.foldl (fun n a => n * 256 + (octet a).getD 0) 0

def groupBytes (g : Text) : List Nat := [(group g).getD 0 / 256, (group g).getD 0 % 256]

def Span.bytes (s : Span) : List Nat :=
  s.groups.flatMap groupBytes ++ (s.quad.getD []).map fun a => (octet a).getD 0

end Lib.IpText
