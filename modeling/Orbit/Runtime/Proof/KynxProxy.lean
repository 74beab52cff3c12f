import Orbit.Runtime.Kynx
import Orbit.Runtime.Proof.KynxAddress

/-!
# What a client can write into its address

The walk over `X-Forwarded-For` stops at the rightmost hop whose first 63 bytes are an address that
is not trusted (`kynxForwardedFrom_eq`). A hop that is no address is passed, and then what the client
wrote to the left of it is believed. `Settles` says when this cannot happen (`effectiveIp_iff`).
-/

namespace Runtime.Kynx

open Http (Text)

/-! ## Hops -/

/-- A hop without the blanks around it. -/
def trim (t : Text) : Text := trimEnd (t.dropWhile isBlank)

/-- The hops of a header, from the left. -/
def hops (xff : Text) : List Text := (xff.splitOn ',').map trim

theorem trimEnd_prefix (t : Text) : ∃ blanks, t = trimEnd t ++ blanks := by
  refine ⟨(t.reverse.takeWhile isBlank).reverse, ?_⟩
  rw [trimEnd, ← List.reverse_append, List.takeWhile_append_dropWhile, List.reverse_reverse]

theorem trim_of_plain {t : Text} (h : ∀ c ∈ t, isBlank c = false) : trim t = t := by
  have hdrop : ∀ l : Text, (∀ c ∈ l, isBlank c = false) → l.dropWhile isBlank = l := by
    intro l hl
    cases l with
    | nil => rfl
    | cons c l =>
      rw [List.dropWhile_cons_of_neg]
      rw [hl c List.mem_cons_self]
      exact Bool.false_ne_true
  rw [trim, trimEnd, hdrop t h, hdrop t.reverse fun c hc => h c (List.mem_reverse.mp hc),
    List.reverse_reverse]

theorem trim_trim (t : Text) : trim (trim t) = trim t := by
  have hend : ∀ l : Text, trimEnd (trimEnd l) = trimEnd l := by
    intro l
    rw [trimEnd, trimEnd, List.reverse_reverse, List.dropWhile_idempotent]
  have hfront : (trim t).dropWhile isBlank = trim t := by
    obtain ⟨blanks, hblanks⟩ := trimEnd_prefix (t.dropWhile isBlank)
    rw [trim]
    cases hcase : trimEnd (t.dropWhile isBlank) with
    | nil => rfl
    | cons c l =>
      rw [hcase] at hblanks
      have hhead := List.head?_dropWhile_not isBlank t
      rw [hblanks] at hhead
      rw [List.dropWhile_cons_of_neg]
      simpa using hhead
  rw [trim, hfront, trim, hend]

theorem mem_trim {t : Text} {c : Char} (h : c ∈ trim t) : c ∈ t := by
  obtain ⟨blanks, hblanks⟩ := trimEnd_prefix (t.dropWhile isBlank)
  refine (List.dropWhile_suffix isBlank).mem ?_
  rw [hblanks]
  exact List.mem_append_left _ h

theorem hops_append {s : Text} (hs : ',' ∉ s) (pre : Text) :
    hops (pre ++ ',' :: s) = hops pre ++ [trim s] := by
  rw [hops, List.splitOn_append_cons_self, List.splitOn_eq_singleton hs, List.map_append]
  rfl

theorem hops_single {s : Text} (hs : ',' ∉ s) : hops s = [trim s] := by
  rw [hops, List.splitOn_eq_singleton hs]
  rfl

/-- A hop that can stand in a header as it is. -/
def Hop (t : Text) : Prop := ',' ∉ t ∧ trim t = t

theorem comma_not_mem {xff s : Text} (hs : s ∈ xff.splitOn ',') : ',' ∉ s := by
  induction xff generalizing s with
  | nil =>
    rw [List.splitOn_nil] at hs
    rw [List.mem_singleton.mp hs]
    exact List.not_mem_nil
  | cons c xff ih =>
    obtain ⟨first, rest, hsplit⟩ := List.exists_cons_of_ne_nil (List.splitOn_ne_nil ',' xff)
    rw [hsplit] at ih
    rw [List.splitOn_cons_eq_if_modifyHead, hsplit] at hs
    split_ifs at hs with hc
    · rcases List.mem_cons.mp hs with rfl | hs
      · exact List.not_mem_nil
      · exact ih hs
    · rw [List.modifyHead_cons] at hs
      rcases List.mem_cons.mp hs with rfl | hs
      · intro hmem
        rcases List.mem_cons.mp hmem with hmem | hmem
        · exact hc (beq_iff_eq.mpr hmem.symm)
        · exact ih List.mem_cons_self hmem
      · exact ih (List.mem_cons_of_mem _ hs)

theorem hop_of_mem (xff : Text) {h : Text} (hmem : h ∈ hops xff) : Hop h := by
  obtain ⟨s, hs, rfl⟩ := List.mem_map.mp hmem
  exact ⟨fun hcomma => comma_not_mem hs (mem_trim hcomma), trim_trim s⟩

theorem hops_join {l : List Text} (hne : l ≠ []) (hl : ∀ h ∈ l, Hop h) :
    hops ([','].intercalate l) = l := by
  rw [hops, List.splitOn_intercalate ',' (fun h hh => (hl h hh).1) hne]
  conv_rhs => rw [← List.map_id l]
  exact List.map_congr_left fun h hh => (hl h hh).2

/-- An address can stand in a header as it is. -/
theorem hop_of_address {t : Text} (h : (kynxParseIp t).isSome) : Hop t := by
  obtain ⟨ip, hip⟩ := Option.isSome_iff_exists.mp h
  refine ⟨kynxParseIp_not_mem hip (by decide) (by decide) (by decide) (by decide),
    trim_of_plain fun c hc => ?_⟩
  by_contra hblank
  rw [Bool.not_eq_false, isBlank, Bool.or_eq_true, decide_eq_true_iff, decide_eq_true_iff]
    at hblank
  rcases hblank with rfl | rfl
  · exact kynxParseIp_not_mem hip (by decide) (by decide) (by decide) (by decide) hc
  · exact kynxParseIp_not_mem hip (by decide) (by decide) (by decide) (by decide) hc

/-! ## The walk -/

theorem lastHop_cases (before : Text) :
    ',' ∉ lastHop before ∧
      (before = lastHop before ∨ ∃ pre, before = pre ++ ',' :: lastHop before) := by
  have hfree : ',' ∉ lastHop before := by
    intro hmem
    have := List.mem_takeWhile_imp (List.mem_reverse.mp hmem)
    simp at this
  refine ⟨hfree, ?_⟩
  have hsplit : before =
      (before.reverse.dropWhile (· ≠ ',')).reverse ++ lastHop before := by
    rw [lastHop, ← List.reverse_append, List.takeWhile_append_dropWhile, List.reverse_reverse]
  cases hrest : before.reverse.dropWhile (· ≠ ',') with
  | nil =>
    rw [hrest, List.reverse_nil, List.nil_append] at hsplit
    exact .inl hsplit
  | cons c rest =>
    have hhead := List.head?_dropWhile_not (· ≠ ',') before.reverse
    rw [hrest] at hhead hsplit
    have hc : c = ',' := by simpa using hhead
    rw [List.reverse_cons, List.append_assoc, List.singleton_append, hc] at hsplit
    exact .inr ⟨_, hsplit⟩

theorem trim_blanks {t : Text} (h : ∀ c ∈ t, isBlank c = true) : trim t = [] := by
  rw [trim, List.dropWhile_eq_nil_iff.mpr h]
  rfl

/-- A hop at which the walk stops. -/
def caught (trusted : List KynxTrustedNet) (h : Text) : Bool :=
  (kynxParseIp (h.take 63)).isSome && !orbitKynxIsTrustedProxy trusted (h.take 63)

/-- The walk stops at the rightmost such hop. -/
theorem kynxForwardedFrom_eq {trusted : List KynxTrustedNet} {out : Text} {fuel : Nat}
    {before : Text} (h : before.length < fuel) :
    kynxForwardedFrom trusted out 64 fuel before =
      (((hops before).reverse.find? (caught trusted)).map (List.take 63)).getD out := by
  induction fuel generalizing before with
  | zero => cases h
  | succ fuel ih =>
    rw [kynxForwardedFrom]
    by_cases hnil : before = []
    · rw [if_pos hnil, hnil]
      rfl
    rw [if_neg hnil]
    obtain ⟨hfree, hcases⟩ := lastHop_cases before
    generalize lastHop before = s at hfree hcases ⊢
    have hblanks : s.takeWhile isBlank ++ s.dropWhile isBlank = s :=
      List.takeWhile_append_dropWhile
    have hall : ∀ c ∈ s.takeWhile isBlank, isBlank c = true := fun c hc => List.mem_takeWhile_imp hc
    have htrim : trimEnd (s.dropWhile isBlank) = trim s := rfl
    dsimp only
    rw [htrim]
    generalize s.takeWhile isBlank = blanks at hblanks hall
    generalize s.dropWhile isBlank = segment at hblanks
    by_cases hstop : caught trusted (trim s) = true
    · have hcond : trim s ≠ [] ∧ (kynxParseIp ((trim s).take 63)).isSome ∧
          !orbitKynxIsTrustedProxy trusted ((trim s).take 63) := by
        rw [caught, Bool.and_eq_true] at hstop
        refine ⟨fun hempty => ?_, hstop⟩
        rw [hempty] at hstop
        exact absurd hstop.1 (by decide)
      have hlast : ∃ pre, hops before = pre ++ [trim s] := by
        rcases hcases with rfl | ⟨pre, rfl⟩
        · exact ⟨[], hops_single hfree⟩
        · exact ⟨hops pre, hops_append hfree pre⟩
      obtain ⟨pre, hlast⟩ := hlast
      rw [if_pos hcond, hlast, List.reverse_append, List.reverse_singleton, List.singleton_append,
        List.find?_cons_of_pos hstop, Option.map_some, Option.getD_some, List.take_take]
      rfl
    · rw [if_neg fun hcond => hstop (by
        rw [caught, Bool.and_eq_true]
        exact hcond.2)]
      have hempty : ∀ l : Text, (∀ c ∈ l, isBlank c = true) → ',' ∉ l := by
        intro l hl hc
        exact absurd (hl _ hc) (by decide)
      have hskip : ∀ l : Text, (∀ c ∈ l, isBlank c = true) → ¬ caught trusted (trim l) = true := by
        intro l hl
        rw [trim_blanks hl]
        simp [caught, show kynxParseIp [] = none by decide]
      rcases hcases with rfl | ⟨pre, rfl⟩
      · rw [hops_single hfree, List.reverse_singleton, List.find?_cons_of_neg hstop,
          List.find?_nil]
        split_ifs with hzero
        · rfl
        · have htake : before.take (before.length - segment.length - 1) =
              blanks.take (blanks.length - 1) := by
            rw [← hblanks, List.length_append, Nat.add_sub_cancel, List.take_append_of_le_length
              (Nat.sub_le _ _)]
          have hbl : ∀ c ∈ blanks.take (blanks.length - 1), isBlank c = true :=
            fun c hc => hall c (List.mem_of_mem_take hc)
          have hlen : before.length = blanks.length + segment.length := by
            rw [← hblanks, List.length_append]
          rw [htake, ih (by rw [List.length_take]; omega), hops_single (hempty _ hbl),
            List.reverse_singleton, List.find?_cons_of_neg (hskip _ hbl), List.find?_nil]
      · rw [List.length_append, List.length_cons] at h
        have hlen : s.length = blanks.length + segment.length := by
          rw [← hblanks, List.length_append]
        rw [hops_append hfree, List.reverse_append, List.reverse_singleton, List.singleton_append,
          List.find?_cons_of_neg hstop, List.length_append, List.length_cons,
          if_neg (by omega),
          show pre.length + (s.length + 1) - segment.length - 1 = pre.length + blanks.length by omega,
          List.take_length_add_append, ← hblanks, ← List.cons_append,
          List.take_append_of_le_length (by rw [List.length_cons]; omega)]
        -- a blank in front is stepped over with the comma, and leaves an empty hop
        cases blanks with
        | nil =>
          rw [List.length_nil, List.take_zero, List.append_nil, ih (by omega)]
        | cons b blanks =>
          have hbl : ∀ c ∈ (b :: blanks).take blanks.length, isBlank c = true :=
            fun c hc => hall c (List.mem_of_mem_take hc)
          rw [List.length_cons, List.take_succ_cons, ih, hops_append (hempty _ hbl),
            List.reverse_append, List.reverse_singleton, List.singleton_append,
            List.find?_cons_of_neg (hskip _ hbl)]
          rw [List.length_cons] at hlen
          rw [List.length_append, List.length_cons, List.length_take, List.length_cons]
          omega

theorem orbitKynxEffectiveIp_untrusted {trusted : List KynxTrustedNet} {peer : Text}
    (h : orbitKynxIsTrustedProxy trusted peer = false) (xff : Text) :
    orbitKynxEffectiveIp trusted peer xff 64 = peer.take 63 := by
  rw [orbitKynxEffectiveIp, if_neg (by decide), h]
  exact if_pos (.inr rfl)

theorem orbitKynxEffectiveIp_trusted {trusted : List KynxTrustedNet} {peer : Text}
    (h : orbitKynxIsTrustedProxy trusted peer = true) (xff : Text) :
    orbitKynxEffectiveIp trusted peer xff 64 =
      (((hops xff).reverse.find? (caught trusted)).map (List.take 63)).getD (peer.take 63) := by
  rw [orbitKynxEffectiveIp, if_neg (by decide), h]
  by_cases hnil : xff = []
  · rw [hnil]
    rfl
  · exact (if_neg (by simpa using hnil)).trans (kynxForwardedFrom_eq (Nat.lt_succ_self _))

/-! ## What decides -/

/-- `hop` is the rightmost hop that is not empty and not a trusted proxy, and `rest` is behind
it. -/
def DecidedBy (trusted : List KynxTrustedNet) (xff hop : Text) (rest : List Text) : Prop :=
  (∃ left, hops xff = left ++ hop :: rest) ∧ hop ≠ [] ∧
    orbitKynxIsTrustedProxy trusted hop = false ∧
    ∀ r ∈ rest, r = [] ∨ orbitKynxIsTrustedProxy trusted r = true

/-- The address that such a hop gives. -/
def claimed (peer hop : Text) : Text := if (kynxParseIp hop).isSome then hop else peer

/-- When it does so whatever is to the left of it. A trusted hop may be caught when it is cut to 63
bytes; else a hop that is an address must have 63 bytes at most, and one that is none may be followed
by no address at all. -/
def Settles (trusted : List KynxTrustedNet) (peer hop : Text) (rest : List Text) : Prop :=
  match rest.reverse.find? (caught trusted) with
  | some r => r.take 63 = hop
  | none =>
    if (kynxParseIp hop).isSome then hop.length ≤ 63
    else peer.length ≤ 63 ∧ ∀ t, t.length ≤ 63 → caught trusted t = false

theorem DecidedBy.hops_behind {trusted : List KynxTrustedNet} {xff hop : Text} {rest : List Text}
    (h : DecidedBy trusted xff hop rest) {left : List Text} (hleft : ∀ t ∈ left, Hop t) :
    hops ([','].intercalate (left ++ hop :: rest)) = left ++ hop :: rest := by
  obtain ⟨⟨left₀, hhops⟩, -⟩ := h
  refine hops_join ?_ ?_
  · exact List.append_ne_nil_of_right_ne_nil _ (List.cons_ne_nil _ _)
  · intro t ht
    rcases List.mem_append.mp ht with ht | ht
    · exact hleft t ht
    · refine hop_of_mem xff ?_
      rw [hhops]
      exact List.mem_append_right _ ht

theorem caught_iff {trusted : List KynxTrustedNet} {h : Text} :
    caught trusted h = true ↔
      (kynxParseIp (h.take 63)).isSome ∧ orbitKynxIsTrustedProxy trusted (h.take 63) = false := by
  rw [caught, Bool.and_eq_true, Bool.not_eq_true']

theorem caught_take (trusted : List KynxTrustedNet) (h : Text) :
    caught trusted (h.take 63) = caught trusted h := by
  rw [caught, caught, List.take_take, Nat.min_self]

theorem length_orbitKynxEffectiveIp (trusted : List KynxTrustedNet) (peer xff : Text) :
    (orbitKynxEffectiveIp trusted peer xff 64).length ≤ 63 := by
  cases hpeer : orbitKynxIsTrustedProxy trusted peer with
  | false =>
    rw [orbitKynxEffectiveIp_untrusted hpeer]
    exact List.length_take_le _ _
  | true =>
    rw [orbitKynxEffectiveIp_trusted hpeer]
    cases (hops xff).reverse.find? (caught trusted) with
    | none => exact List.length_take_le _ _
    | some r => exact List.length_take_le _ _

/-- A trusted peer is never mistaken for a hop. -/
theorem take_ne_peer {trusted : List KynxTrustedNet} {peer : Text}
    (hpeer : orbitKynxIsTrustedProxy trusted peer = true) {r : Text}
    (hr : caught trusted r = true) : r.take 63 ≠ peer := by
  rintro rfl
  rw [(caught_iff.mp hr).2] at hpeer
  cases hpeer

section
variable {trusted : List KynxTrustedNet} {peer hop : Text} {rest : List Text}

/-- The walk over a header with a deciding hop. -/
theorem effectiveIp_of_hops (hpeer : orbitKynxIsTrustedProxy trusted peer = true) {xff : Text}
    {left : List Text} (h : hops xff = left ++ hop :: rest) :
    orbitKynxEffectiveIp trusted peer xff 64 =
      (((rest.reverse.find? (caught trusted)).or
        ((hop :: left.reverse).find? (caught trusted))).map (List.take 63)).getD
          (peer.take 63) := by
  rw [orbitKynxEffectiveIp_trusted hpeer, h, List.reverse_append, List.reverse_cons,
    List.append_assoc, List.singleton_append, List.find?_append]

/-- A trusted hop that is caught behind it gives the address. -/
theorem effectiveIp_caught_iff (hpeer : orbitKynxIsTrustedProxy trusted peer = true)
    (hdecided : ∃ xff, DecidedBy trusted xff hop rest) {r : Text}
    (hfind : rest.reverse.find? (caught trusted) = some r) :
    (∀ xff, DecidedBy trusted xff hop rest →
        orbitKynxEffectiveIp trusted peer xff 64 = claimed peer hop) ↔ r.take 63 = hop := by
  obtain ⟨xff₀, h₀⟩ := hdecided
  have hr : caught trusted r = true := List.find?_some hfind
  have hgives : ∀ xff, DecidedBy trusted xff hop rest →
      orbitKynxEffectiveIp trusted peer xff 64 = r.take 63 := by
    rintro xff ⟨⟨left, hhops⟩, -⟩
    rw [effectiveIp_of_hops hpeer hhops, hfind]
    rfl
  rw [claimed]
  constructor
  · intro h
    have hclaim := h xff₀ h₀
    rw [hgives xff₀ h₀] at hclaim
    split_ifs at hclaim
    · exact hclaim
    · exact absurd hclaim (take_ne_peer hpeer hr)
  · intro h xff hxff
    rw [hgives xff hxff, if_pos (by rw [← h]; exact (caught_iff.mp hr).1), h]

/-- A hop that is an address is found whole, or cut. -/
theorem effectiveIp_address_iff (hpeer : orbitKynxIsTrustedProxy trusted peer = true)
    (hdecided : ∃ xff, DecidedBy trusted xff hop rest)
    (hfind : rest.reverse.find? (caught trusted) = none) (haddress : (kynxParseIp hop).isSome) :
    (∀ xff, DecidedBy trusted xff hop rest → orbitKynxEffectiveIp trusted peer xff 64 = hop) ↔
      hop.length ≤ 63 := by
  obtain ⟨xff₀, h₀⟩ := hdecided
  constructor
  · intro h
    rw [← h xff₀ h₀]
    exact length_orbitKynxEffectiveIp trusted peer xff₀
  · rintro h xff ⟨⟨left, hhops⟩, -, huntrusted, -⟩
    have htake : hop.take 63 = hop := List.take_eq_self_iff hop |>.mpr h
    have hcaught : caught trusted hop = true := by
      rw [caught_iff, htake]
      exact ⟨haddress, huntrusted⟩
    rw [effectiveIp_of_hops hpeer hhops, hfind, Option.none_or, List.find?_cons_of_pos hcaught,
      Option.map_some, Option.getD_some, htake]

/-- Past a hop that is no address, the client's own text is looked at. -/
theorem effectiveIp_passed_iff (hpeer : orbitKynxIsTrustedProxy trusted peer = true)
    (hdecided : ∃ xff, DecidedBy trusted xff hop rest)
    (hfind : rest.reverse.find? (caught trusted) = none) :
    (∀ xff, DecidedBy trusted xff hop rest → orbitKynxEffectiveIp trusted peer xff 64 = peer) ↔
      peer.length ≤ 63 ∧ ∀ t, t.length ≤ 63 → caught trusted t = false := by
  obtain ⟨xff₀, h₀⟩ := hdecided
  constructor
  · intro h
    have hshort : peer.length ≤ 63 := by
      rw [← h xff₀ h₀]
      exact length_orbitKynxEffectiveIp trusted peer xff₀
    refine ⟨hshort, fun t ht => ?_⟩
    by_contra hcaught
    rw [Bool.not_eq_false] at hcaught
    -- what a client can write to the left of it
    have htake : t.take 63 = t := List.take_eq_self_iff t |>.mpr ht
    have hhop : Hop t := hop_of_address (by
      rw [← htake]
      exact (caught_iff.mp hcaught).1)
    have hforged := h₀.hops_behind (List.forall_mem_singleton.mpr hhop)
    have hsome : ((hop :: [t].reverse).find? (caught trusted)).isSome := by
      rw [List.find?_isSome]
      exact ⟨t, List.mem_cons_of_mem _ List.mem_cons_self, hcaught⟩
    obtain ⟨r, hr⟩ := Option.isSome_iff_exists.mp hsome
    have hgiven := h _ ⟨⟨_, hforged⟩, h₀.2⟩
    rw [effectiveIp_of_hops hpeer hforged, hfind, Option.none_or, hr, Option.map_some,
      Option.getD_some] at hgiven
    exact take_ne_peer hpeer (List.find?_some hr) hgiven
  · rintro ⟨hshort, hnone⟩ xff ⟨⟨left, hhops⟩, -⟩
    have hmiss : (hop :: left.reverse).find? (caught trusted) = none := by
      rw [List.find?_eq_none]
      intro t _
      rw [← caught_take, hnone _ (List.length_take_le _ _)]
      exact Bool.false_ne_true
    rw [effectiveIp_of_hops hpeer hhops, hfind, hmiss]
    exact List.take_eq_self_iff peer |>.mpr hshort

end

/-- **What a hop in a header gives.** An untrusted peer is the address, cut to 63 bytes. Behind a
trusted peer the rightmost hop that is not a trusted proxy gives the address whatever a client wrote
to the left of it, namely itself if it is an address and else the peer, if and only if it
`Settles`. -/
theorem effectiveIp_iff (trusted : List KynxTrustedNet) (peer : Text) :
    (orbitKynxIsTrustedProxy trusted peer = false → ∀ xff,
        (orbitKynxEffectiveIp trusted peer xff 64 = peer ↔ peer.length ≤ 63)) ∧
      (orbitKynxIsTrustedProxy trusted peer = true → ∀ hop rest,
        (∃ xff, DecidedBy trusted xff hop rest) →
          ((∀ xff, DecidedBy trusted xff hop rest →
              orbitKynxEffectiveIp trusted peer xff 64 = claimed peer hop) ↔
            Settles trusted peer hop rest)) := by
  refine ⟨fun hpeer xff => ?_, fun hpeer hop rest hdecided => ?_⟩
  · rw [orbitKynxEffectiveIp_untrusted hpeer, List.take_eq_self_iff]
  rw [Settles]
  cases hfind : rest.reverse.find? (caught trusted) with
  | some r => exact effectiveIp_caught_iff hpeer hdecided hfind
  | none =>
    dsimp only
    rw [claimed]
    split_ifs with haddress
    · exact effectiveIp_address_iff hpeer hdecided hfind haddress
    · exact effectiveIp_passed_iff hpeer hdecided hfind

/-- Behind two proxies of 10.0.0.0/8, with an address that the client wrote in front. -/
theorem effectiveIp_behind_two :
    orbitKynxEffectiveIp [⟨.v4 167772160, 8⟩] "10.0.0.5".toList
      "1.2.3.4, 203.0.113.7, 10.9.9.9".toList 64 = "203.0.113.7".toList := by
  have hdecided : DecidedBy [⟨.v4 167772160, 8⟩] "1.2.3.4, 203.0.113.7, 10.9.9.9".toList
      "203.0.113.7".toList ["10.9.9.9".toList] :=
    ⟨⟨["1.2.3.4".toList], by decide⟩, by decide, by decide,
      List.forall_mem_singleton.mpr (.inr (by decide))⟩
  have hsettles : Settles [⟨.v4 167772160, 8⟩] "10.0.0.5".toList "203.0.113.7".toList
      ["10.9.9.9".toList] := by
    rw [Settles, show List.find? (caught [⟨.v4 167772160, 8⟩]) ["10.9.9.9".toList].reverse = none
      by decide]
    dsimp only
    rw [if_pos (by decide)]
    decide
  have hgives := ((effectiveIp_iff [⟨.v4 167772160, 8⟩] "10.0.0.5".toList).2 (by decide)
    "203.0.113.7".toList ["10.9.9.9".toList] ⟨_, hdecided⟩).mpr hsettles _ hdecided
  rwa [claimed, if_pos (by decide)] at hgives

/-- A proxy recorded `unknown`, and the address that the client wrote in front of it is taken. -/
theorem effectiveIp_behind_unknown :
    ¬ ∀ trusted peer, orbitKynxIsTrustedProxy trusted peer = true → ∀ xff hop rest,
      DecidedBy trusted xff hop rest →
        orbitKynxEffectiveIp trusted peer xff 64 = claimed peer hop := by
  intro h
  have hgives := h [⟨.v4 167772160, 8⟩] "10.0.0.5".toList (by decide)
    "1.2.3.4, unknown".toList "unknown".toList []
    ⟨⟨["1.2.3.4".toList], by decide⟩, by decide, by decide, nofun⟩
  exact absurd hgives (by decide)

end Runtime.Kynx
