import Mathlib
import Orbit.Lib.IpText
import Orbit.Runtime.Kynx

/-!
# Which texts are read as addresses

`kynxParseIp` accepts a text by its parts (`kynxParseIp_iff`), and yields the address they stand for.
It accepts the standard form, and some more: octets without a digit, octets and groups with any
number of zeros before their digits, octets before `::`, and `::` for no group at all. On the other
texts it does what the standard form says (`kynxParseIp_standard_iff`).
-/

namespace Runtime.Kynx

open Lib.IpText

/-! ## Numbers -/

/-- A decimal number up to 255, also without a digit. -/
def Octet (a : Text) : Prop := ∃ v, octet a = some v ∧ v ≤ 255

/-- A hexadecimal number of 16 bits. -/
def Group (g : Text) : Prop := g ≠ [] ∧ ∃ v, group g = some v ∧ v ≤ 0xFFFF

/-- The number of an octet. -/
def octetValue (a : Text) : Nat := (octet a).getD 0

theorem decimal_eq (c : Char) :
    decimal c = if isDecimal c then some (c.toNat - '0'.toNat) else none := by
  rw [decimal, isDecimal]
  simp only [Bool.and_eq_true, decide_eq_true_eq]

theorem hexDigit_eq (c : Char) : hexDigit c = hexadecimal c := by
  rw [hexDigit, hexadecimal, isDecimal]
  simp only [Bool.and_eq_true, decide_eq_true_eq]

theorem decimal_le {c : Char} {d : Nat} (h : decimal c = some d) : d ≤ 9 := by
  rw [decimal] at h
  split_ifs at h with hdec
  have hle : c.toNat ≤ '9'.toNat := hdec.2
  rw [← Option.some.inj h]
  change c.toNat ≤ 57 at hle
  change c.toNat - 48 ≤ 9
  omega

/-- The digits of a group are bounded as they are read. -/
theorem hexGroup_iff {g : Text} {n v : Nat} (hn : n ≤ 0xFFFF) :
    hexGroup g n = some v ↔ numeralFrom 16 hexadecimal n g = some v ∧ v ≤ 0xFFFF := by
  induction g generalizing n with
  | nil =>
    rw [hexGroup, numeralFrom, Option.some.injEq]
    exact ⟨fun h => ⟨h, h ▸ hn⟩, fun h => h.1⟩
  | cons c g ih =>
    rw [hexGroup, numeralFrom, hexDigit_eq]
    cases hexadecimal c with
    | none => exact ⟨nofun, nofun⟩
    | some d =>
      dsimp only [Option.bind_eq_bind, Option.bind_some]
      split_ifs with hbig
      · refine iff_of_false nofun fun ⟨h, hv⟩ => ?_
        have := le_numeralFrom (by decide) h
        omega
      · exact ih (by omega)

/-! ## Octets -/

/-- An octet is put behind the ones read before. -/
def push (w : UInt32) (o : Nat) : UInt32 := (w <<< 8) ||| UInt32.ofNat o

theorem push_eq (n : Nat) {o : Nat} (ho : o ≤ 255) :
    push (UInt32.ofNat n) o = UInt32.ofNat (n * 256 + o) := by
  have hshift : (n % 2 ^ 32) <<< 8 % 2 ^ 32 = (n % 2 ^ 24) <<< 8 := by
    rw [Nat.shiftLeft_eq, Nat.shiftLeft_eq]
    omega
  have hsmall : o % 2 ^ 32 = o := by omega
  rw [push, ← UInt32.toNat_inj, UInt32.toNat_or, UInt32.toNat_shiftLeft, UInt32.toNat_ofNat',
    UInt32.toNat_ofNat', UInt32.toNat_ofNat', show (8 : UInt32).toNat % 32 = 8 from rfl, hshift, hsmall,
    ← Nat.shiftLeft_add_eq_or_of_lt (show o < 2 ^ 8 by omega), Nat.shiftLeft_eq]
  omega

/-- The parser of octets, by the parts between the dots. -/
theorem kynxFastParseIpv4From_iff {t : Text} {val w : UInt32} {n dots : Nat} (hn : n ≤ 255)
    (hdots : dots ≤ 3) {first : Text} {rest : List Text} (hsplit : t.splitOn '.' = first :: rest) :
    kynxFastParseIpv4From t val (UInt32.ofNat n) dots = some w ↔
      rest.length + dots = 3 ∧ ∃ v, numeralFrom 10 decimal n first = some v ∧ v ≤ 255 ∧
        (∀ a ∈ rest, Octet a) ∧ w = (rest.map octetValue).foldl push (push val v) := by
  induction t generalizing val n dots first rest with
  | nil =>
    obtain ⟨rfl, rfl⟩ := List.cons.inj hsplit
    rw [kynxFastParseIpv4From]
    split_ifs with h3
    · exact iff_of_false nofun fun h => h3 (by simpa using h.1)
    · have hend : ([] : List Text).length + dots = 3 := by
        rw [List.length_nil]
        omega
      rw [and_iff_right hend, Option.some.injEq]
      constructor
      · rintro rfl
        exact ⟨n, rfl, hn, nofun, rfl⟩
      · rintro ⟨v, hv, -, -, rfl⟩
        rw [← Option.some.inj hv]
        rfl
  | cons c t ih =>
    rw [kynxFastParseIpv4From]
    obtain ⟨first', rest', hsplit'⟩ := List.exists_cons_of_ne_nil (List.splitOn_ne_nil '.' t)
    rw [List.splitOn_cons_eq_if_modifyHead, hsplit'] at hsplit
    by_cases hdot : c = '.'
    · subst hdot
      rw [if_pos (by decide)] at hsplit
      obtain ⟨rfl, rfl⟩ := List.cons.inj hsplit
      rw [if_neg (by decide), if_pos rfl]
      split_ifs with h3
      · exact iff_of_false nofun fun h => by
          have := h.1
          rw [List.length_cons] at this
          omega
      · have hrec : kynxFastParseIpv4From t (push val n) (UInt32.ofNat 0) (dots + 1) = some w ↔ _ :=
          ih (Nat.zero_le _) (by omega) hsplit'
        rw [push, show UInt32.ofNat 0 = 0 from rfl] at hrec
        rw [hrec]
        constructor
        · rintro ⟨hlen, v, hv, hle, hrest, rfl⟩
          have hoctet : Octet first' := ⟨v, hv, hle⟩
          refine ⟨by rw [List.length_cons]; omega, n, rfl, hn,
            List.forall_mem_cons.mpr ⟨hoctet, hrest⟩, ?_⟩
          have hvalue : octetValue first' = v := by
            rw [octetValue, octet, hv, Option.getD_some]
          rw [List.map_cons, List.foldl_cons, hvalue, push, push, push]
        · rintro ⟨hlen, v, hv, -, hrest, rfl⟩
          obtain ⟨⟨v', hv', hle'⟩, hrest⟩ := List.forall_mem_cons.mp hrest
          refine ⟨by rw [List.length_cons] at hlen; omega, v', hv', hle', hrest, ?_⟩
          have hvalue : octetValue first' = v' := by
            rw [octetValue, hv', Option.getD_some]
          rw [List.map_cons, List.foldl_cons, hvalue, ← Option.some.inj hv, push, push, push]
    · rw [if_neg (by simpa using hdot), List.modifyHead_cons] at hsplit
      obtain ⟨rfl, rfl⟩ := List.cons.inj hsplit
      rw [numeralFrom, decimal_eq]
      by_cases hdec : isDecimal c = true
      · have hd : decimal c = some (c.toNat - '0'.toNat) := by rw [decimal_eq, if_pos hdec]
        have hle := decimal_le hd
        have hnext : UInt32.ofNat n * 10 + UInt32.ofNat (c.toNat - '0'.toNat) =
            UInt32.ofNat (n * 10 + (c.toNat - '0'.toNat)) := by
          rw [UInt32.ofNat_add, UInt32.ofNat_mul]
          rfl
        rw [if_pos hdec, if_pos hdec]
        dsimp only
        rw [hnext]
        have hgt : UInt32.ofNat (n * 10 + (c.toNat - '0'.toNat)) > 255 ↔
            255 < n * 10 + (c.toNat - '0'.toNat) := by
          rw [gt_iff_lt, UInt32.lt_iff_toNat_lt, UInt32.toNat_ofNat',
            show (255 : UInt32).toNat = 255 from rfl]
          omega
        by_cases hbig : 255 < n * 10 + (c.toNat - '0'.toNat)
        · rw [if_pos (hgt.mpr hbig)]
          refine iff_of_false nofun fun ⟨_, v, hv, hle', _⟩ => ?_
          have := le_numeralFrom (by decide) hv
          omega
        · rw [if_neg (mt hgt.mp hbig)]
          exact ih (by omega) hdots hsplit'
      · rw [if_neg hdec, if_neg hdec, if_neg hdot]
        exact iff_of_false nofun fun ⟨_, v, hv, _⟩ => nomatch hv

/-- Four octets. -/
def Quad (octets : List Text) : Prop := octets.length = 4 ∧ ∀ a ∈ octets, Octet a

theorem octetValue_le {a : Text} (h : Octet a) : octetValue a ≤ 255 := by
  obtain ⟨v, hv, hle⟩ := h
  rw [octetValue, hv, Option.getD_some]
  exact hle

theorem kynxFastParseIpv4_iff (t : Text) (w : UInt32) :
    kynxFastParseIpv4 t = some w ↔
      Quad (t.splitOn '.') ∧ w = UInt32.ofNat (quadValue (t.splitOn '.')) := by
  obtain ⟨first, rest, hsplit⟩ := List.exists_cons_of_ne_nil (List.splitOn_ne_nil '.' t)
  have hparse := @kynxFastParseIpv4From_iff t (UInt32.ofNat 0) w 0 0 (by decide) (by decide) first
    rest hsplit
  have hfold : ∀ (as : List Text) (n : Nat), (∀ a ∈ as, Octet a) →
      (as.map octetValue).foldl push (UInt32.ofNat n) =
        UInt32.ofNat (as.foldl (fun n a => n * 256 + (octet a).getD 0) n) := by
    intro as
    induction as with
    | nil => exact fun n _ => rfl
    | cons a as ih =>
      intro n h
      obtain ⟨ha, has⟩ := List.forall_mem_cons.mp h
      rw [List.map_cons, List.foldl_cons, push_eq n (octetValue_le ha), ih _ has, List.foldl_cons,
        octetValue]
  rw [kynxFastParseIpv4, show (0 : UInt32) = UInt32.ofNat 0 from rfl, hparse, hsplit, Quad, quadValue,
    List.length_cons, List.forall_mem_cons, Nat.add_zero]
  constructor
  · rintro ⟨hlen, v, hv, hle, hrest, rfl⟩
    have hfirst : Octet first := ⟨v, hv, hle⟩
    have hall := hfold (first :: rest) 0 (List.forall_mem_cons.mpr ⟨hfirst, hrest⟩)
    have hvalue : octetValue first = v := by rw [octetValue, octet, hv, Option.getD_some]
    rw [List.map_cons, List.foldl_cons, hvalue] at hall
    exact ⟨⟨by omega, hfirst, hrest⟩, hall⟩
  · rintro ⟨⟨hlen, hfirst, hrest⟩, rfl⟩
    obtain ⟨v, hv, hle⟩ := id hfirst
    have hall := hfold (first :: rest) 0 (List.forall_mem_cons.mpr ⟨hfirst, hrest⟩)
    have hvalue : octetValue first = v := by rw [octetValue, hv, Option.getD_some]
    rw [List.map_cons, List.foldl_cons, hvalue] at hall
    exact ⟨by omega, v, hv, hle, hrest, hall.symm⟩

/-- The bytes of four octets. -/
theorem bytesOf_quad {octets : List Text} (h : Quad octets) :
    bytesOf (UInt32.ofNat (quadValue octets)) =
      (octets.map fun a => (octet a).getD 0).map UInt8.ofNat := by
  obtain ⟨hlen, hall⟩ := h
  match octets, hlen with
  | [a, b, c, d], _ =>
    have ha := octetValue_le (hall a (by simp))
    have hb := octetValue_le (hall b (by simp))
    have hc := octetValue_le (hall c (by simp))
    have hd := octetValue_le (hall d (by simp))
    have hvalue : ∀ x, (octet x).getD 0 = octetValue x := fun _ => rfl
    rw [quadValue, bytesOf]
    simp only [List.foldl_cons, List.foldl_nil, List.map_cons, List.map_nil, hvalue]
    generalize octetValue a = a at ha ⊢
    generalize octetValue b = b at hb ⊢
    generalize octetValue c = c at hc ⊢
    generalize octetValue d = d at hd ⊢
    simp only [List.cons.injEq, ← UInt8.toNat_inj, UInt32.toNat_toUInt8, UInt32.toNat_shiftRight,
      UInt32.toNat_ofNat', UInt8.toNat_ofNat', Nat.shiftRight_eq_div_pow,
      show (24 : UInt32).toNat % 32 = 24 from rfl, show (16 : UInt32).toNat % 32 = 16 from rfl,
      show (8 : UInt32).toNat % 32 = 8 from rfl, and_true]
    omega

/-! ## Spans -/

/-- The octets of a span are copied to 16 bytes with their end. -/
structure SpanOk (s : Span) : Prop where
  groups : ∀ g ∈ s.groups, Group g
  quad : ∀ q ∈ s.quad, Quad q ∧ (quadText q).length ≤ 15

theorem group_not_mem {g : Text} (h : Group g) {c : Char} (hc : hexadecimal c = none) : c ∉ g := by
  obtain ⟨-, v, hv, -⟩ := h
  exact fun hmem => digit_of_mem hv hmem hc

theorem octet_not_mem {a : Text} (h : Octet a) {c : Char} (hc : decimal c = none) : c ∉ a := by
  obtain ⟨v, hv, -⟩ := h
  exact fun hmem => digit_of_mem hv hmem hc

theorem SpanOk.length {s : Span} (h : SpanOk s) : s.bytes.length = s.width := by
  have hgroups : ∀ gs : List Text, (gs.flatMap groupBytes).length = 2 * gs.length := by
    intro gs
    induction gs with
    | nil => rfl
    | cons g gs ih =>
      rw [List.flatMap_cons, List.length_append, ih, List.length_cons]
      change 2 + _ = _
      omega
  rw [Span.bytes, Span.width, List.length_append, List.length_map, hgroups]
  cases hquad : s.quad with
  | none => rfl
  | some q =>
    rw [Option.getD_some, Option.isSome_some, if_pos rfl, ((h.quad q hquad).1).1]

theorem spanOk_cons {g : Text} {s : Span} :
    SpanOk ⟨g :: s.groups, s.quad⟩ ↔ Group g ∧ SpanOk s :=
  ⟨fun h => ⟨h.groups g List.mem_cons_self, fun x hx => h.groups x (List.mem_cons_of_mem _ hx), h.quad⟩,
    fun ⟨hg, h⟩ => ⟨List.forall_mem_cons.mpr ⟨hg, h.groups⟩, h.quad⟩⟩

theorem bytes_cons (g : Text) (s : Span) :
    (Span.mk (g :: s.groups) s.quad).bytes = groupBytes g ++ s.bytes := by
  rw [Span.bytes, Span.bytes, List.flatMap_cons, List.append_assoc]

theorem width_cons (g : Text) (s : Span) :
    (Span.mk (g :: s.groups) s.quad).width = 2 + s.width := by
  rw [Span.width, Span.width, List.length_cons]
  dsimp only
  omega

/-- What a group adds. -/
theorem groupBytes_eq {g : Text} {v : Nat} (h : group g = some v) :
    (groupBytes g).map UInt8.ofNat = [UInt8.ofNat (v / 256), UInt8.ofNat (v % 256)] := by
  rw [groupBytes, h]
  rfl

/-- The octets at the end of a span. -/
theorem parseQuad_iff {p : Text} (hp : p ≠ []) (hcolon : ':' ∉ p) (hdot : '.' ∈ p)
    (written out : List UInt8) :
    (if p.length ≥ 16 then none
      else do
        let v4 ← kynxFastParseIpv4 p
        if written.length + 4 > 16 then none else some (written ++ bytesOf v4)) = some out ↔
      SpanOk (readSpan p) ∧ written.length + (readSpan p).width ≤ 16 ∧
        out = written ++ (readSpan p).bytes.map UInt8.ofNat := by
  have htext : quadText (p.splitOn '.') = p := List.intercalate_splitOn '.'
  have hok : SpanOk (readSpan p) ↔ Quad (p.splitOn '.') ∧ p.length ≤ 15 := by
    rw [readSpan_single hp hcolon, if_pos hdot]
    constructor
    · intro h
      have hquad := h.quad _ rfl
      rwa [htext] at hquad
    · rintro ⟨hquad, hlen⟩
      refine ⟨nofun, fun q hq => ?_⟩
      rw [← Option.some.inj hq, htext]
      exact ⟨hquad, hlen⟩
  have hwidth : (readSpan p).width = 4 := by
    rw [readSpan_single hp hcolon, if_pos hdot]
    rfl
  have hbytes : (readSpan p).bytes = (p.splitOn '.').map fun a => (octet a).getD 0 := by
    rw [readSpan_single hp hcolon, if_pos hdot]
    rfl
  rw [hok, hwidth, hbytes]
  by_cases hlong : p.length ≥ 16
  · rw [if_pos hlong]
    exact iff_of_false nofun fun h => by omega
  · rw [if_neg hlong]
    cases hparse : kynxFastParseIpv4 p with
    | none =>
      refine iff_of_false nofun fun ⟨⟨hquad, _⟩, _⟩ => ?_
      rw [(kynxFastParseIpv4_iff p _).mpr ⟨hquad, rfl⟩] at hparse
      cases hparse
    | some w =>
      obtain ⟨hquad, rfl⟩ := (kynxFastParseIpv4_iff p w).mp hparse
      dsimp only [Option.bind_eq_bind, Option.bind_some]
      rw [bytesOf_quad hquad]
      split_ifs with hfull
      · exact iff_of_false nofun fun h => by omega
      · rw [Option.some.injEq]
        exact ⟨fun h => ⟨⟨hquad, by omega⟩, by omega, h.symm⟩, fun h => h.2.2.symm⟩

/-- The parser of groups, by the parts between the colons. -/
theorem kynxParseV6Span_iff {fuel : Nat} {p : Text} {written out : List UInt8}
    (hfuel : p.length < fuel) (hw : written.length ≤ 16) :
    kynxParseV6Span fuel p written = some out ↔
      SpanOk (readSpan p) ∧ written.length + (readSpan p).width ≤ 16 ∧
        out = written ++ (readSpan p).bytes.map UInt8.ofNat := by
  induction fuel generalizing p written with
  | zero => omega
  | succ fuel ih =>
    rw [kynxParseV6Span]
    by_cases hp : p = []
    · rw [if_pos hp, hp, Option.some.injEq]
      have hempty : readSpan [] = ⟨[], none⟩ := rfl
      rw [hempty]
      change written = out ↔ _ ∧ written.length + 0 ≤ 16 ∧ out = written ++ []
      rw [List.append_nil]
      exact ⟨fun h => ⟨⟨nofun, nofun⟩, hw, h.symm⟩, fun h => h.2.2.symm⟩
    · rw [if_neg hp]
      dsimp only
      have hsplit := List.takeWhile_append_dropWhile (p := fun c : Char => decide (c ≠ ':')) (l := p)
      have hcolon : ':' ∉ p.takeWhile fun c => decide (c ≠ ':') := fun h => by
        simpa using List.mem_takeWhile_imp h
      generalize (p.takeWhile fun c => decide (c ≠ ':')) = g at hsplit hcolon ⊢
      cases hrest : p.dropWhile fun c => decide (c ≠ ':') with
      | nil =>
        rw [hrest, List.append_nil] at hsplit
        subst hsplit
        by_cases hdot : '.' ∈ g
        · rw [if_pos hdot]
          simpa using parseQuad_iff hp hcolon hdot written out
        · have hread : readSpan g = ⟨g :: (readSpan []).groups, (readSpan []).quad⟩ := by
            rw [readSpan_single hp hcolon, if_neg hdot]
            rfl
          rw [if_neg hdot, if_neg hp, hread, spanOk_cons, width_cons, bytes_cons]
          cases hval : hexGroup g 0 with
          | none =>
            refine iff_of_false nofun fun ⟨⟨⟨_, v, hv, hle⟩, _⟩, _⟩ => ?_
            rw [(hexGroup_iff (Nat.zero_le _)).mpr ⟨hv, hle⟩] at hval
            cases hval
          | some v =>
            obtain ⟨hv, hle⟩ := (hexGroup_iff (Nat.zero_le _)).mp hval
            have hgroup : Group g := ⟨hp, v, hv, hle⟩
            have hempty : SpanOk (readSpan []) := ⟨nofun, nofun⟩
            rw [List.map_append, groupBytes_eq hv]
            dsimp only [Option.bind_eq_bind, Option.bind_some]
            change _ ↔ _ ∧ written.length + (2 + 0) ≤ 16 ∧ out = written ++ (_ ++ [])
            rw [List.append_nil]
            split_ifs with hfull
            · exact iff_of_false nofun fun h => by omega
            · rw [Option.some.injEq]
              exact ⟨fun h => ⟨⟨hgroup, hempty⟩, by omega, h.symm⟩, fun h => h.2.2.symm⟩
      | cons c next =>
        obtain rfl : c = ':' := by
          have hhead := List.head?_dropWhile_not (fun c : Char => decide (c ≠ ':')) p
          rw [hrest] at hhead
          simpa using hhead
        rw [hrest] at hsplit
        subst hsplit
        have hread := readSpan_group hcolon next
        by_cases hgroup : Group g
        · obtain ⟨hne, v, hv, hle⟩ := id hgroup
          have hval := (hexGroup_iff (Nat.zero_le _)).mpr ⟨hv, hle⟩
          rw [if_neg (group_not_mem hgroup (by decide)), if_neg hne, hval]
          dsimp only [Option.bind_eq_bind, Option.bind_some]
          by_cases hnext : next = []
          · have hbad : ¬ SpanOk (readSpan (g ++ ':' :: next)) := by
              rw [hread, if_pos hnext]
              exact fun h => (h.groups [] (by simp)).1 rfl
            rw [hnext, if_pos rfl]
            refine iff_of_false ?_ fun h => hbad (hnext ▸ h.1)
            split_ifs <;> exact nofun
          · rw [hread, if_neg hnext, if_neg hnext, spanOk_cons, width_cons, bytes_cons, List.map_append,
              groupBytes_eq hv]
            split_ifs with hfull
            · exact iff_of_false nofun fun h => by omega
            · have hshort : next.length < fuel := by
                rw [List.length_append, List.length_cons] at hfuel
                omega
              rw [ih hshort (by rw [List.length_append]; exact Nat.le_of_not_lt hfull),
                List.length_append, and_iff_right hgroup, List.append_assoc]
              change _ ∧ written.length + 2 + _ ≤ 16 ∧ _ ↔ _
              rw [Nat.add_assoc]
        · have hbad : ¬ SpanOk (readSpan (g ++ ':' :: next)) := by
            rw [hread]
            split_ifs
            · exact fun h => hgroup (h.groups g (by simp))
            · exact fun h => hgroup (h.groups g List.mem_cons_self)
          refine iff_of_false ?_ fun h => hbad h.1
          by_cases hdot : '.' ∈ g
          · rw [if_pos hdot, if_pos (.inr (List.cons_ne_nil _ _))]
            exact nofun
          · rw [if_neg hdot]
            by_cases hne : g = []
            · rw [if_pos hne]
              exact nofun
            · rw [if_neg hne]
              cases hval : hexGroup g 0 with
              | none => exact nofun
              | some v => exact absurd ⟨hne, v, (hexGroup_iff (Nat.zero_le _)).mp hval⟩ hgroup

/-! ## Addresses -/

/-- What is accepted of a text in its parts. -/
def ReadingOk : Reading → Prop
  | .v4 octets => Quad octets
  | .full s => SpanOk s ∧ s.width = 16
  | .compressed head tail =>
    SpanOk head ∧ SpanOk tail ∧ head.width ≤ 14 ∧ head.width + tail.width ≤ 16

/-- The address that a text in its parts stands for. -/
def addressOf : Reading → OrbitKynxIP
  | .v4 octets => .v4 (UInt32.ofNat (quadValue octets))
  | .full s => .v6 (s.bytes.map UInt8.ofNat)
  | .compressed head tail =>
    .v6 (head.bytes.map UInt8.ofNat ++ List.replicate (16 - (head.width + tail.width)) 0 ++
      tail.bytes.map UInt8.ofNat)

theorem SpanOk.plain {s : Span} (h : SpanOk s) : s.Plain where
  groups g hg := ⟨(h.groups g hg).1, group_not_mem (h.groups g hg) (by decide),
    group_not_mem (h.groups g hg) (by decide)⟩
  quad q hq := by
    obtain ⟨⟨hlen, hall⟩, -⟩ := h.quad q hq
    exact ⟨by omega, fun a ha =>
      ⟨octet_not_mem (hall a ha) (by decide), octet_not_mem (hall a ha) (by decide)⟩⟩

theorem ReadingOk.plain {r : Reading} (h : ReadingOk r) : r.Plain := by
  cases r with
  | v4 octets =>
    obtain ⟨hlen, hall⟩ := h
    refine ⟨?_, fun a ha =>
      ⟨octet_not_mem (hall a ha) (by decide), octet_not_mem (hall a ha) (by decide)⟩⟩
    rintro rfl
    cases hlen
  | full s =>
    obtain ⟨hok, hwidth⟩ := h
    refine ⟨hok.plain, ?_⟩
    rw [Span.width] at hwidth
    rw [Span.parts, List.length_append]
    split_ifs at hwidth <;> omega
  | compressed head tail => exact ⟨h.1.plain, h.2.1.plain⟩

theorem kynxParseIpv6_iff (t : Text) (out : List UInt8) :
    kynxParseIpv6 t = some out ↔
      match Lib.Find.indexOf [':', ':'] t with
      | none => ReadingOk (.full (readSpan t)) ∧ out = (readSpan t).bytes.map UInt8.ofNat
      | some sep => ReadingOk (.compressed (readSpan (t.take sep)) (readSpan (t.drop (sep + 2)))) ∧
          .v6 out = addressOf (.compressed (readSpan (t.take sep)) (readSpan (t.drop (sep + 2)))) := by
  rw [kynxParseIpv6]
  cases hsep : Lib.Find.indexOf [':', ':'] t with
  | none =>
    dsimp only
    have hspan : ∀ out, _ ↔ _ := fun out =>
      @kynxParseV6Span_iff (t.length + 1) t [] out (Nat.lt_succ_self _) (Nat.zero_le _)
    simp only [List.length_nil, Nat.zero_add, List.nil_append] at hspan
    cases hparse : kynxParseV6Span (t.length + 1) t [] with
    | none =>
      refine iff_of_false (Option.some_ne_none out).symm fun h => ?_
      obtain ⟨⟨hok, hwidth⟩, -⟩ := h
      rw [(hspan _).mpr ⟨hok, by omega, rfl⟩] at hparse
      cases hparse
    | some bytes =>
      obtain ⟨hok, hwidth, rfl⟩ := (hspan bytes).mp hparse
      dsimp only [Option.bind_eq_bind, Option.bind_some]
      rw [List.length_map, hok.length, ReadingOk, and_iff_right hok]
      split_ifs with hall
      · rw [Option.some.injEq, and_iff_right hall, eq_comm]
      · exact iff_of_false not_false fun h => hall h.1
  | some sep =>
    dsimp only
    have hhead : ∀ out, _ ↔ _ := fun out =>
      @kynxParseV6Span_iff (t.length + 1) (t.take sep) [] out
        (by rw [List.length_take]; omega) (Nat.zero_le _)
    have htail : ∀ out, _ ↔ _ := fun out =>
      @kynxParseV6Span_iff (t.length + 1) (t.drop (sep + 2)) [] out
        (by rw [List.length_drop]; omega) (Nat.zero_le _)
    simp only [List.length_nil, Nat.zero_add, List.nil_append] at hhead htail
    rw [ReadingOk, addressOf, OrbitKynxIP.v6.injEq]
    have hclean : SpanOk (readSpan (t.drop (sep + 2))) →
        Lib.Find.indexOf [':', ':'] (t.drop (sep + 2)) = none := by
      intro hok
      have hone := hok.plain.clean.indexOf []
      rw [List.append_nil, ← Span.text, text_readSpan] at hone
      exact hone
    generalize readSpan (t.take sep) = head at hhead ⊢
    generalize readSpan (t.drop (sep + 2)) = tail at htail hclean ⊢
    cases hparse : kynxParseV6Span (t.length + 1) (t.take sep) [] with
    | none =>
      refine iff_of_false (Option.some_ne_none out).symm fun h => ?_
      obtain ⟨⟨hok, -, hwidth, -⟩, -⟩ := h
      rw [(hhead _).mpr ⟨hok, by omega, rfl⟩] at hparse
      cases hparse
    | some bytes =>
      obtain ⟨hok, hwidth, rfl⟩ := (hhead bytes).mp hparse
      dsimp only [Option.bind_eq_bind, Option.bind_some]
      rw [List.length_map, hok.length, and_iff_right hok]
      by_cases hlong : head.width > 14
      · rw [if_pos hlong]
        exact iff_of_false (Option.some_ne_none out).symm fun h => by omega
      · rw [if_neg hlong]
        by_cases htok : SpanOk tail
        · rw [hclean htok, if_neg (by simp), and_iff_right htok]
          by_cases hboth : tail.width ≤ 16
          · rw [(htail _).mpr ⟨htok, hboth, rfl⟩]
            dsimp only [Option.bind_some]
            rw [List.length_map, htok.length]
            split_ifs with hsum
            · exact iff_of_false not_false fun h => by omega
            · rw [Option.some.injEq, eq_comm, and_iff_right ⟨by omega, by omega⟩]
          · have hnone : kynxParseV6Span (t.length + 1) (t.drop (sep + 2)) [] = none := by
              rw [Option.eq_none_iff_forall_ne_some]
              exact fun x hx => hboth ((htail x).mp hx).2.1
            rw [hnone]
            exact iff_of_false (Option.some_ne_none out).symm fun h => by omega
        · refine iff_of_false ?_ fun h => htok h.1.1
          split_ifs
          · exact not_false
          · have hnone : kynxParseV6Span (t.length + 1) (t.drop (sep + 2)) [] = none := by
              rw [Option.eq_none_iff_forall_ne_some]
              exact fun x hx => htok ((htail x).mp hx).1
            rw [hnone]
            exact (Option.some_ne_none out).symm

/-- **A text is accepted by its parts**, as the address they stand for. -/
theorem kynxParseIp_iff (t : Text) (ip : OrbitKynxIP) :
    kynxParseIp t = some ip ↔ ReadingOk (readText t) ∧ ip = addressOf (readText t) := by
  rw [kynxParseIp, readText]
  split_ifs with hcolon
  · rw [Option.map_eq_some_iff]
    have hsix := kynxParseIpv6_iff t
    cases hsep : Lib.Find.indexOf [':', ':'] t with
    | none =>
      rw [hsep] at hsix
      dsimp only at hsix ⊢
      constructor
      · rintro ⟨out, hout, rfl⟩
        obtain ⟨hok, rfl⟩ := (hsix out).mp hout
        exact ⟨hok, rfl⟩
      · rintro ⟨hok, rfl⟩
        exact ⟨_, (hsix _).mpr ⟨hok, rfl⟩, rfl⟩
    | some sep =>
      rw [hsep] at hsix
      dsimp only at hsix ⊢
      constructor
      · rintro ⟨out, hout, rfl⟩
        exact (hsix out).mp hout
      · rintro ⟨hok, rfl⟩
        exact ⟨_, (hsix _).mpr ⟨hok, rfl⟩, rfl⟩
  · rw [Option.map_eq_some_iff]
    constructor
    · rintro ⟨w, hw, rfl⟩
      obtain ⟨hquad, rfl⟩ := (kynxFastParseIpv4_iff t w).mp hw
      exact ⟨hquad, rfl⟩
    · rintro ⟨hok, rfl⟩
      exact ⟨_, (kynxFastParseIpv4_iff t _).mpr ⟨hok, rfl⟩, rfl⟩

/-- What an accepted text is made of. -/
theorem ReadingOk.not_mem {r : Reading} (h : ReadingOk r) {c : Char} (hhex : hexadecimal c = none)
    (hdec : decimal c = none) (hcolon : c ≠ ':') (hdot : c ≠ '.') : c ∉ r.text := by
  have hquad : ∀ octets, Quad octets → c ∉ quadText octets := by
    intro octets hq hc
    rcases mem_intercalate hc with hc | ⟨a, ha, hc⟩
    · exact hdot hc
    · exact octet_not_mem (hq.2 a ha) hdec hc
  have hspan : ∀ s, SpanOk s → c ∉ s.text := by
    intro s hs hc
    rcases mem_intercalate hc with hc | ⟨p, hp, hc⟩
    · exact hcolon hc
    · rcases List.mem_append.mp hp with hp | hp
      · exact group_not_mem (hs.groups p hp) hhex hc
      · obtain ⟨q, hq, rfl⟩ := Option.map_eq_some_iff.mp (Option.mem_toList.mp hp)
        exact hquad q (hs.quad q hq).1 hc
  cases r with
  | v4 octets => exact hquad octets h
  | full s => exact hspan s h.1
  | compressed head tail =>
    intro hc
    rcases List.mem_append.mp hc with hc | hc
    · exact hspan head h.1 hc
    · rcases List.mem_cons.mp hc with hc | hc
      · exact hcolon hc
      · rcases List.mem_cons.mp hc with hc | hc
        · exact hcolon hc
        · exact hspan tail h.2.1 hc

theorem kynxParseIp_not_mem {t : Text} {ip : OrbitKynxIP} (h : kynxParseIp t = some ip) {c : Char}
    (hhex : hexadecimal c = none) (hdec : decimal c = none) (hcolon : c ≠ ':') (hdot : c ≠ '.') :
    c ∉ t := by
  have := ((kynxParseIp_iff t ip).mp h).1.not_mem hhex hdec hcolon hdot
  rwa [text_readText] at this

/-! ## The standard form -/

/-- A text of an address in the standard form. -/
def Denotes (t : Text) (ip : OrbitKynxIP) : Prop :=
  ∃ r : Reading, r.text = t ∧ r.Standard ∧ addressOf r = ip

/-- An octet that is not of one to three digits. -/
def CarelessOctet (a : Text) : Prop := a = [] ∨ 3 < a.length

def SpanCareless (s : Span) : Prop :=
  (∃ g ∈ s.groups, 4 < g.length) ∨ ∃ q ∈ s.quad, ∃ a ∈ q, CarelessOctet a

/-- What is accepted beyond the standard form: octets of no digit or of more than three, groups of
more than four digits, octets before `::`, and `::` where no group is missing. -/
def Careless : Reading → Prop
  | .v4 octets => ∃ a ∈ octets, CarelessOctet a
  | .full s => SpanCareless s
  | .compressed head tail =>
    SpanCareless head ∨ SpanCareless tail ∨ head.quad ≠ none ∨ 14 < head.width + tail.width

/-- A text with such a part, of which the rest is as it should be. -/
def Sloppy (t : Text) : Prop := ∃ r : Reading, r.text = t ∧ ReadingOk r ∧ Careless r

theorem standardOctet_iff (a : Text) : StandardOctet a ↔ Octet a ∧ ¬ CarelessOctet a := by
  rw [StandardOctet, CarelessOctet, not_or, ← List.length_eq_zero_iff]
  constructor
  · rintro ⟨hpos, hlen, hv⟩
    exact ⟨hv, by omega, by omega⟩
  · rintro ⟨hv, hpos, hlen⟩
    exact ⟨by omega, by omega, hv⟩

theorem standardGroup_iff (g : Text) : StandardGroup g ↔ Group g ∧ ¬ 4 < g.length := by
  constructor
  · rintro ⟨hpos, hlen, v, hv⟩
    have hlt := numeralFrom_lt (fun c d => hexadecimal_lt) hv
    have hpow : 16 ^ g.length ≤ 16 ^ 4 := Nat.pow_le_pow_right (by decide) hlen
    refine ⟨⟨?_, v, hv, by omega⟩, by omega⟩
    rintro rfl
    cases hpos
  · rintro ⟨⟨hne, v, hv, -⟩, hlen⟩
    exact ⟨List.length_pos_iff.mpr hne, by omega, v, hv⟩

theorem standardQuad_iff (octets : List Text) :
    StandardQuad octets ↔ Quad octets ∧ ¬ ∃ a ∈ octets, CarelessOctet a := by
  rw [StandardQuad, Quad]
  constructor
  · rintro ⟨hlen, hall⟩
    exact ⟨⟨hlen, fun a ha => ((standardOctet_iff a).mp (hall a ha)).1⟩,
      fun ⟨a, ha, hbad⟩ => ((standardOctet_iff a).mp (hall a ha)).2 hbad⟩
  · rintro ⟨⟨hlen, hall⟩, hcareful⟩
    exact ⟨hlen, fun a ha => (standardOctet_iff a).mpr ⟨hall a ha, fun hbad => hcareful ⟨a, ha, hbad⟩⟩⟩

/-- Four octets in the standard form fit into 16 bytes with their end. -/
theorem standardQuad_length {octets : List Text} (h : StandardQuad octets) :
    (quadText octets).length ≤ 15 := by
  obtain ⟨hlen, hall⟩ := h
  match octets, hlen with
  | [a, b, c, d], _ =>
    have ha := (hall a (by simp)).2.1
    have hb := (hall b (by simp)).2.1
    have hc := (hall c (by simp)).2.1
    have hd := (hall d (by simp)).2.1
    rw [quadText, List.intercalate_cons_cons, List.intercalate_cons_cons, List.intercalate_cons_cons,
      List.intercalate_singleton]
    simp only [List.length_append, List.length_singleton]
    omega

theorem spanStandard_iff (s : Span) : s.Standard ↔ SpanOk s ∧ ¬ SpanCareless s := by
  constructor
  · intro h
    refine ⟨⟨fun g hg => ((standardGroup_iff g).mp (h.groups g hg)).1, fun q hq =>
      ⟨((standardQuad_iff q).mp (h.quad q hq)).1, standardQuad_length (h.quad q hq)⟩⟩, ?_⟩
    rintro (⟨g, hg, hlong⟩ | ⟨q, hq, hbad⟩)
    · exact ((standardGroup_iff g).mp (h.groups g hg)).2 hlong
    · exact ((standardQuad_iff q).mp (h.quad q hq)).2 hbad
  · rintro ⟨hok, hcareful⟩
    exact ⟨fun g hg => (standardGroup_iff g).mpr
        ⟨hok.groups g hg, fun hlong => hcareful (.inl ⟨g, hg, hlong⟩)⟩,
      fun q hq => (standardQuad_iff q).mpr
        ⟨(hok.quad q hq).1, fun hbad => hcareful (.inr ⟨q, hq, hbad⟩)⟩⟩

/-- The standard form is what is accepted, without what is careless. -/
theorem standard_iff (r : Reading) : r.Standard ↔ ReadingOk r ∧ ¬ Careless r := by
  cases r with
  | v4 octets => exact standardQuad_iff octets
  | full s =>
    rw [Reading.Standard, ReadingOk, Careless, spanStandard_iff]
    exact and_right_comm
  | compressed head tail =>
    rw [Reading.Standard, ReadingOk, Careless, spanStandard_iff, spanStandard_iff, not_or, not_or,
      not_or, not_not]
    constructor
    · rintro ⟨⟨hhead, hcareful⟩, hquad, ⟨htail, hcareful'⟩, hwidth⟩
      exact ⟨⟨hhead, htail, by omega, by omega⟩, hcareful, hcareful', hquad, by omega⟩
    · rintro ⟨⟨hhead, htail, -, -⟩, hcareful, hcareful', hquad, hwidth⟩
      exact ⟨⟨hhead, hcareful⟩, hquad, ⟨htail, hcareful'⟩, by omega⟩

/-- An accepted reading is that of its text. -/
theorem ReadingOk.read_eq {r : Reading} (h : ReadingOk r) {t : Text} (ht : r.text = t) :
    readText t = r := by
  rw [← ht, readText_text h.plain]

theorem sloppy_iff (t : Text) : Sloppy t ↔ ReadingOk (readText t) ∧ Careless (readText t) := by
  constructor
  · rintro ⟨r, ht, hok, hcareless⟩
    rw [hok.read_eq ht]
    exact ⟨hok, hcareless⟩
  · rintro ⟨hok, hcareless⟩
    exact ⟨readText t, text_readText t, hok, hcareless⟩

theorem denotes_iff (t : Text) (ip : OrbitKynxIP) :
    Denotes t ip ↔ (readText t).Standard ∧ ip = addressOf (readText t) := by
  constructor
  · rintro ⟨r, ht, hstandard, rfl⟩
    rw [((standard_iff r).mp hstandard).1.read_eq ht]
    exact ⟨hstandard, rfl⟩
  · rintro ⟨hstandard, rfl⟩
    exact ⟨readText t, text_readText t, hstandard, rfl⟩

/-- **A text is accepted exactly when it is an address in the standard form, and as this address**, if
and only if it is not one with a careless part. Such texts of one address have one key, and those of
two addresses have two. -/
theorem kynxParseIp_standard_iff (t : Text) :
    ((∀ ip, kynxParseIp t = some ip ↔ Denotes t ip) ↔ ¬ Sloppy t) ∧
      ∀ t' ip ip', Denotes t ip → Denotes t' ip' →
        (kynxParseIp t = kynxParseIp t' ↔ ip = ip') := by
  have hkey : ∀ t ip, Denotes t ip → kynxParseIp t = some ip := by
    intro t ip h
    obtain ⟨hstandard, hip⟩ := (denotes_iff t ip).mp h
    exact (kynxParseIp_iff t ip).mpr ⟨((standard_iff _).mp hstandard).1, hip⟩
  constructor
  · rw [sloppy_iff]
    constructor
    · rintro h ⟨hok, hcareless⟩
      have hparse := (kynxParseIp_iff t _).mpr ⟨hok, rfl⟩
      obtain ⟨hstandard, -⟩ := (denotes_iff t _).mp ((h _).mp hparse)
      exact ((standard_iff _).mp hstandard).2 hcareless
    · intro h ip
      refine ⟨fun hparse => ?_, hkey t ip⟩
      obtain ⟨hok, hip⟩ := (kynxParseIp_iff t ip).mp hparse
      exact (denotes_iff t ip).mpr ⟨(standard_iff _).mpr ⟨hok, fun hbad => h ⟨hok, hbad⟩⟩, hip⟩
  · intro t' ip ip' h h'
    rw [hkey t ip h, hkey t' ip' h', Option.some.injEq]

/-- Two texts of the loopback address. -/
theorem kynxParseIp_standard_loopback :
    kynxParseIp "::1".toList = kynxParseIp "0:0:0:0:0:0:0:1".toList := by
  have hone : ∀ g : Text, g = ['0'] ∨ g = ['1'] → StandardGroup g := by
    rintro g (rfl | rfl)
    · exact ⟨by decide, by decide, 0, rfl⟩
    · exact ⟨by decide, by decide, 1, rfl⟩
  refine ((kynxParseIp_standard_iff _).2 _ (.v6 (List.replicate 15 0 ++ [1]))
    (.v6 (List.replicate 15 0 ++ [1])) ?_ ?_).mpr rfl
  · refine ⟨.compressed ⟨[], none⟩ ⟨[['1']], none⟩, rfl, ⟨⟨nofun, nofun⟩, rfl, ⟨?_, nofun⟩, by decide⟩,
      by decide⟩
    exact fun g hg => hone g (.inr (List.mem_singleton.mp hg))
  · refine ⟨.full ⟨List.replicate 7 ['0'] ++ [['1']], none⟩, rfl, ⟨⟨?_, nofun⟩, rfl⟩,
      by decide⟩
    intro g hg
    rcases List.mem_append.mp hg with hg | hg
    · exact hone g (.inl (List.eq_of_mem_replicate hg))
    · exact hone g (.inr (List.mem_singleton.mp hg))

/-- `1..2.3` is accepted, as 1.0.2.3. -/
theorem kynxParseIp_empty_octet :
    ¬ ∀ t ip, kynxParseIp t = some ip ↔ Denotes t ip := by
  intro h
  obtain ⟨hstandard, -⟩ := (denotes_iff _ _).mp
    ((h "1..2.3".toList (.v4 16777731)).mp (by decide))
  have hread : readText "1..2.3".toList = .v4 [['1'], [], ['2'], ['3']] := by decide
  rw [hread] at hstandard
  exact absurd (hstandard.2 [] (by simp)).1 (by decide)

end Runtime.Kynx
