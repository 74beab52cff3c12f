import Mathlib.Data.List.TakeWhile
import Orbit.Runtime.Response
import Orbit.Runtime.Proof.Http

/-!
# The end of a connection

The parser has stored a NUL behind the method when the dispatchers search the buffer for
`Connection: close`. So the search sees the method alone and never finds it
(`keepAlive_of_request`): a connection is closed as the request asks exactly when it does not ask
(`closesAsAsked_iff`).
-/

namespace Runtime.Http

theorem stored_getElem? (raw : Text) (nulls : List Nat) (i : Nat) :
    (stored raw nulls)[i]? = if i ∈ nulls ∧ i < raw.length then some nul else raw[i]? := by
  induction nulls generalizing raw with
  | nil => simp [stored]
  | cons j nulls ih =>
    have hstep : stored raw (j :: nulls) = stored (raw.set j nul) nulls := rfl
    rw [hstep, ih, List.length_set, List.getElem?_set]
    by_cases hmem : i ∈ nulls ∧ i < raw.length
    · rw [if_pos hmem, if_pos ⟨List.mem_cons_of_mem _ hmem.1, hmem.2⟩]
    · rw [if_neg hmem]
      by_cases hij : j = i
      · subst hij
        by_cases hlt : j < raw.length
        · simp [hlt]
        · simp [hlt]
      · have hnot : ¬ (i ∈ j :: nulls ∧ i < raw.length) := by
          rintro ⟨hcons, hlt⟩
          rcases List.mem_cons.mp hcons with rfl | hi
          · exact hij rfl
          · exact hmem ⟨hi, hlt⟩
        rw [if_neg hij, if_neg hnot]

/-- The bytes of a string stand before its NUL. -/
theorem cString_getElem? {s : Text} {c : Char} (h : c ∈ cString s) {i : Nat}
    (hi : s[i]? = some nul) : ∃ j < i, s[j]? = some c := by
  obtain ⟨j, hj⟩ := List.mem_iff_getElem?.mp h
  have hsplit := List.takeWhile_append_dropWhile (p := (· ≠ nul)) (l := s)
  have hjlt : j < (cString s).length := (List.getElem?_eq_some_iff.mp hj).1
  have hread : ∀ k < (cString s).length, s[k]? = (cString s)[k]? := by
    intro k hk
    conv_lhs => rw [← hsplit]
    exact List.getElem?_append_left hk
  refine ⟨j, ?_, by rw [hread j hjlt, hj]⟩
  by_contra hle
  have hilt : i < (cString s).length := by omega
  rw [hread i hilt] at hi
  have hne := List.mem_takeWhile_imp (List.mem_of_getElem? hi)
  simp at hne

section
variable {lim : OrbitHttpLimits} {raw : Text}

/-- A request that is there has a space, and the parser has put a NUL in its place and in no place
before it. -/
theorem space_of_request {req : OrbitRequest} {consumed : Nat}
    (h : (orbitHttpParseRequest lim raw).outcome = .request req consumed) :
    ∃ space, memchr raw ' ' 0 raw.length = some space ∧
      space ∈ (orbitHttpParseRequest lim raw).nulls ∧
      ∀ i ∈ (orbitHttpParseRequest lim raw).nulls, space ≤ i := by
  rw [orbitHttpParseRequest] at h ⊢
  cases hread : readHead lim raw with
  | more => rw [hread] at h; cases h
  | refuse code => rw [hread] at h; cases h
  | complete e cl =>
    rw [hread] at h
    simp only [splitRequest] at h ⊢
    cases hspace : memchr raw ' ' 0 raw.length with
    | none => rw [hspace] at h; cases h
    | some space =>
      refine ⟨space, rfl, ?_⟩
      have hend : space + 1 ≤ (memchr raw ' ' (space + 1) raw.length).getD (space + 1) := by
        cases hstop : memchr raw ' ' (space + 1) raw.length with
        | none => exact Nat.le_refl _
        | some stop => exact (memchr_eq_some.mp hstop).1
      simp only
      cases hquery : memchr raw '?' (space + 1)
          ((memchr raw ' ' (space + 1) raw.length).getD (space + 1)) with
      | none =>
        refine ⟨List.mem_cons_self, ?_⟩
        simp only [List.mem_cons, List.not_mem_nil, or_false]
        rintro i (rfl | rfl) <;> omega
      | some query =>
        have hlt := (memchr_eq_some.mp hquery).1
        refine ⟨List.mem_cons_self, ?_⟩
        simp only [List.mem_cons, List.not_mem_nil, or_false]
        rintro i (rfl | rfl | rfl) <;> omega

/-- The search sees no space. -/
theorem no_space_of_request {req : OrbitRequest} {consumed : Nat}
    (h : (orbitHttpParseRequest lim raw).outcome = .request req consumed) :
    ' ' ∉ cString (stored raw (orbitHttpParseRequest lim raw).nulls) := by
  obtain ⟨space, hspace, hmem, hfirst⟩ := space_of_request h
  obtain ⟨-, hlt, -, hmin⟩ := memchr_eq_some.mp hspace
  intro hsp
  have hnul : (stored raw (orbitHttpParseRequest lim raw).nulls)[space]? = some nul := by
    rw [stored_getElem?, if_pos ⟨hmem, hlt⟩]
  obtain ⟨j, hj, hread⟩ := cString_getElem? hsp hnul
  rw [stored_getElem?, if_neg fun hand => absurd (hfirst j hand.1) (by omega)] at hread
  exact hmin j (Nat.zero_le _) hj hread

theorem indexOf_isNone {needle text : Text} (hneedle : ' ' ∈ needle) (htext : ' ' ∉ text) :
    Lib.Find.indexOf needle text = none := by
  cases hfound : Lib.Find.indexOf needle text with
  | none => rfl
  | some p =>
    obtain ⟨hstart, -⟩ := Lib.Find.indexOf_some hfound
    exact absurd (List.mem_of_mem_drop (hstart.subset hneedle)) htext

/-- No request that is there closes its connection. -/
theorem keepAlive_of_request {req : OrbitRequest} {consumed : Nat}
    (h : (orbitHttpParseRequest lim raw).outcome = .request req consumed) :
    keepAlive (stored raw (orbitHttpParseRequest lim raw).nulls) = true := by
  have hno := no_space_of_request h
  rw [keepAlive, indexOf_isNone (by decide) hno, indexOf_isNone (by decide) hno]
  rfl

/-- The connection of an admitted request is kept. -/
theorem keepAlive_of_admits {ρ : Type} (refusal : Perr → ρ) {gate : Received → Option ρ}
    (answer : Received → ρ) {lim : OrbitHttpLimits} {raw head : Text}
    (h : Admits gate lim raw head) :
    (orbitHandleRequestFull refusal gate answer lim raw).keepAlive = true := by
  obtain ⟨e, req, consumed, -, -, hreq, hgate⟩ := h
  rw [orbitHandleRequestFull]
  simp only [hreq, hgate]
  exact keepAlive_of_request hreq

/-- **A connection is closed as the request asks** exactly when an admitted request does not ask
for it. -/
theorem closesAsAsked_iff {ρ : Type} (refusal : Perr → ρ) (gate : Received → Option ρ)
    (answer : Received → ρ) (lim : OrbitHttpLimits) (raw : Text) :
    ClosesAsAsked refusal gate answer lim raw ↔
      ∀ head, Admits gate lim raw head → wantsClose head = false := by
  refine forall_congr' fun head => forall_congr' fun hadmits => ?_
  rw [keepAlive_of_admits refusal answer hadmits]
  cases wantsClose head <;> simp

end

/-- `Connection: close` does not close the connection of the default dispatcher. -/
theorem orbitHandleRequest_stays :
    ¬ ∀ lim raw, ClosesAsAsked Reply.refused (fun _ => none) defaultReply lim raw := by
  intro h
  have hadmits : @Admits Reply (fun _ => none) defaultLimits
      "GET / HTTP/1.1\r\nHost: a\r\nConnection: close\r\n\r\n".toList
      "GET / HTTP/1.1\r\nHost: a\r\nConnection: close\r\n\r\n".toList :=
    ⟨42, ⟨⟨0, 3⟩, ⟨4, 5⟩, none, some ⟨16, 42⟩, ⟨46, 46⟩⟩, 46, by decide,
      by decide, by decide, rfl⟩
  have hclose := h _ _ _ hadmits
  rw [keepAlive_of_admits _ _ hadmits] at hclose
  revert hclose
  decide

end Runtime.Http
