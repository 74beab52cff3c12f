import Orbit.Runtime.Proof.Arena

/-!
# Allocations that are refused

What an allocation does to the arena (`AllocOutcome`), and what it leaves behind when it hands
nothing out: the arena is as before, but the lease has been charged by then. So a refusal changes
nothing exactly when it comes before the charge, or nothing is charged (`refused_iff`).
-/

namespace Runtime.Arena

/-- The pages that the slow path commits. -/
def slowPages (arena : OrbitArena) (aligned : UInt64) : UInt64 :=
  orbitAlignUp (arena.cursor + aligned - arena.committedEnd) arena.pageSize

/-- What becomes of an allocation: it is refused, and only the note of the ceiling and a reservation
that is given back tell of it; or the block is in committed pages, in pages that are committed for
it, or in a fresh segment. -/
inductive AllocOutcome (arena : OrbitArena) (bytes aligned : UInt64) (os : OsAnswer) :
    AllocResult → Prop
  | refused (hit : Bool) (calls : List OsCall)
      (back : calls = [] ∨ ∃ newMem, os.reserve = some newMem ∧
        (calls = [.release newMem (overflowReserve arena aligned)] ∨
          overflowReserve arena aligned ≠ 0 ∧ overflowCommit arena aligned ≠ 0 ∧
          calls = [.commit newMem (overflowCommit arena aligned),
            .release newMem (overflowReserve arena aligned)])) :
      AllocOutcome arena bytes aligned os ⟨none, { arena with ceilingHit := hit }, calls⟩
  | fast (fits : aligned ≤ arena.reservedEnd - arena.cursor)
      (committed : arena.cursor + aligned ≤ arena.committedEnd) :
      AllocOutcome arena bytes aligned os
        ⟨some arena.cursor, bump arena (arena.cursor + aligned) bytes aligned, []⟩
  | slow (fits : aligned ≤ arena.reservedEnd - arena.cursor)
      (past : arena.committedEnd < arena.cursor + aligned) (pages : slowPages arena aligned ≠ 0)
      (ceiling : orbitArenaCeilingReached arena (slowPages arena aligned) = false)
      (commit : os.commit = true) :
      AllocOutcome arena bytes aligned os
        ⟨some arena.cursor,
          bump { arena with
            committedEnd := arena.committedEnd + slowPages arena aligned
            committedBytes := arena.committedBytes + slowPages arena aligned }
            (arena.cursor + aligned) bytes aligned,
          [.commit arena.committedEnd (slowPages arena aligned)]⟩
  | overflow (newMem : UInt64) (full : ¬ aligned ≤ arena.reservedEnd - arena.cursor)
      (reserve : overflowReserve arena aligned ≠ 0) (pages : overflowCommit arena aligned ≠ 0)
      (ceiling : orbitArenaCeilingReached arena (overflowCommit arena aligned) = false)
      (memory : os.reserve = some newMem) (commit : os.commit = true) (malloc : os.malloc = true) :
      AllocOutcome arena bytes aligned os
        ⟨some newMem,
          { arena with
            overflowList := ⟨arena.base, arena.reservedEnd - arena.base⟩ :: arena.overflowList
            base := newMem
            cursor := newMem + aligned
            committedEnd := newMem + overflowCommit arena aligned
            reservedEnd := newMem + overflowReserve arena aligned
            reservedBytes := arena.reservedBytes + overflowReserve arena aligned
            committedBytes := arena.committedBytes + overflowCommit arena aligned
            capacity := overflowReserve arena aligned
            used := aligned
            allocCount := arena.allocCount + 1
            requestedBytes := arena.requestedBytes + bytes
            alignedBytes := arena.alignedBytes + aligned },
          [.commit newMem (overflowCommit arena aligned)]⟩

section
variable (arena : OrbitArena) (bytes aligned : UInt64) (os : OsAnswer)

/-- A request is granted: its room is committed, or the pages for it are allowed and committed, or a
fresh segment is allowed and there is memory for it. -/
def Granted : Prop :=
  if aligned ≤ arena.reservedEnd - arena.cursor then
    arena.cursor + aligned ≤ arena.committedEnd ∨
      slowPages arena aligned ≠ 0 ∧
        orbitArenaCeilingReached arena (slowPages arena aligned) = false ∧ os.commit = true
  else
    overflowReserve arena aligned ≠ 0 ∧ overflowCommit arena aligned ≠ 0 ∧
      orbitArenaCeilingReached arena (overflowCommit arena aligned) = false ∧
      os.reserve.isSome = true ∧ os.commit = true ∧ os.malloc = true

instance : Decidable (Granted arena aligned os) := inferInstanceAs (Decidable (ite _ _ _))

/-- A refusal of the arena's side. -/
theorem refuse_none : AllocOutcome arena bytes aligned os ⟨none, arena, []⟩ :=
  .refused arena.ceilingHit [] (.inl rfl)

theorem allocCommit_outcome (fits : aligned ≤ arena.reservedEnd - arena.cursor)
    (past : arena.committedEnd < arena.cursor + aligned) :
    AllocOutcome arena bytes aligned os
        (allocCommit arena (arena.cursor + aligned) bytes aligned os) ∧
      ((allocCommit arena (arena.cursor + aligned) bytes aligned os).ptr ≠ none ↔
        slowPages arena aligned ≠ 0 ∧
          orbitArenaCeilingReached arena (slowPages arena aligned) = false ∧ os.commit = true) := by
  rw [allocCommit, ← slowPages]
  by_cases hpages : slowPages arena aligned = 0
  · rw [if_pos hpages]
    exact ⟨refuse_none arena bytes aligned os, iff_of_false (fun h => h rfl) fun h => h.1 hpages⟩
  · rw [if_neg hpages]
    cases hceiling : orbitArenaCeilingReached arena (slowPages arena aligned) with
    | true => exact ⟨.refused true [] (.inl rfl), iff_of_false (fun h => h rfl) fun h => nomatch h.2.1⟩
    | false =>
      cases hcommit : os.commit with
      | false =>
        exact ⟨refuse_none arena bytes aligned os, iff_of_false (fun h => h rfl) fun h => nomatch h.2.2⟩
      | true =>
        exact ⟨.slow fits past hpages hceiling hcommit,
          iff_of_true (Option.some_ne_none _) ⟨hpages, rfl, rfl⟩⟩

theorem allocOverflow_outcome (full : ¬ aligned ≤ arena.reservedEnd - arena.cursor) :
    AllocOutcome arena bytes aligned os (allocOverflow arena bytes aligned os) ∧
      ((allocOverflow arena bytes aligned os).ptr ≠ none ↔
        overflowReserve arena aligned ≠ 0 ∧ overflowCommit arena aligned ≠ 0 ∧
          orbitArenaCeilingReached arena (overflowCommit arena aligned) = false ∧
          os.reserve.isSome = true ∧ os.commit = true ∧ os.malloc = true) := by
  rw [allocOverflow]
  by_cases hreserve : overflowReserve arena aligned = 0
  · rw [if_pos hreserve]
    exact ⟨refuse_none arena bytes aligned os, iff_of_false (fun h => h rfl) fun h => h.1 hreserve⟩
  · rw [if_neg hreserve]
    by_cases hpages : overflowCommit arena aligned = 0
    · rw [if_pos hpages]
      exact ⟨refuse_none arena bytes aligned os, iff_of_false (fun h => h rfl) fun h => h.2.1 hpages⟩
    · rw [if_neg hpages]
      cases hceiling : orbitArenaCeilingReached arena (overflowCommit arena aligned) with
      | true =>
        exact ⟨.refused true [] (.inl rfl), iff_of_false (fun h => h rfl) fun h => nomatch h.2.2.1⟩
      | false =>
        cases hmem : os.reserve with
        | none =>
          exact ⟨refuse_none arena bytes aligned os,
            iff_of_false (fun h => h rfl) fun h => nomatch h.2.2.2.1⟩
        | some newMem =>
          cases hcommit : os.commit with
          | false =>
            exact ⟨.refused arena.ceilingHit _ (.inr ⟨newMem, hmem, .inl rfl⟩),
              iff_of_false (fun h => h rfl) fun h => nomatch h.2.2.2.2.1⟩
          | true =>
            cases hmalloc : os.malloc with
            | false =>
              exact ⟨.refused arena.ceilingHit _ (.inr ⟨newMem, hmem, .inr ⟨hreserve, hpages, rfl⟩⟩),
                iff_of_false (fun h => h rfl) fun h => nomatch h.2.2.2.2.2⟩
            | true =>
              exact ⟨.overflow newMem full hreserve hpages hceiling hmem hcommit hmalloc,
                iff_of_true (Option.some_ne_none _) ⟨hreserve, hpages, rfl, rfl, rfl, rfl⟩⟩

/-- **What the arena's side of an allocation does**, and when it hands out a block. -/
theorem allocSegment_outcome :
    AllocOutcome arena bytes aligned os (allocSegment arena bytes aligned os) ∧
      ((allocSegment arena bytes aligned os).ptr ≠ none ↔ Granted arena aligned os) := by
  rw [allocSegment, Granted]
  by_cases hfits : aligned ≤ arena.reservedEnd - arena.cursor
  · rw [if_pos hfits, if_pos hfits]
    by_cases hfast : arena.cursor + aligned ≤ arena.committedEnd
    · rw [if_pos hfast]
      exact ⟨.fast hfits hfast, iff_of_true (Option.some_ne_none _) (.inl hfast)⟩
    · rw [if_neg hfast, or_iff_right hfast]
      exact allocCommit_outcome arena bytes aligned os hfits (UInt64.not_le.mp hfast)
  · rw [if_neg hfits, if_neg hfits]
    exact allocOverflow_outcome arena bytes aligned os hfits

variable {arena bytes aligned os}

theorem AllocOutcome.unchanged {r : AllocResult} (h : AllocOutcome arena bytes aligned os r)
    (hnone : r.ptr = none) : ∃ hit, r.arena = { arena with ceilingHit := hit } := by
  cases h with
  | refused hit calls back => exact ⟨hit, rfl⟩
  | fast fits committed => cases hnone
  | slow fits past pages ceiling commit => cases hnone
  | overflow newMem full reserve pages ceiling memory commit malloc => cases hnone

end

/-! ## What a refusal leaves behind -/

/-- An allocation has changed nothing: the arena's fields, but for the note of the ceiling, and the
lease are as before, and later requests are answered as before. -/
structure ChangesNothing (lease : Option OrbitKynxLease) (arena : OrbitArena)
    (r : AllocResult × Option OrbitKynxLease) : Prop where
  fields : ∃ hit, r.1.arena = { arena with ceilingHit := hit }
  charged : r.2 = lease
  later : ∀ bytes os, (orbitAllocTry r.2 r.1.arena bytes os).1.ptr =
    (orbitAllocTry lease arena bytes os).1.ptr

section
variable {lease : Option OrbitKynxLease} {arena : OrbitArena}

theorem ChangesNothing.of_fields {r : AllocResult × Option OrbitKynxLease}
    (harena : ∃ hit, r.1.arena = { arena with ceilingHit := hit }) (hlease : r.2 = lease) :
    ChangesNothing lease arena r := by
  refine ⟨harena, hlease, fun bytes os => ?_⟩
  obtain ⟨hit, hfields⟩ := harena
  rw [hfields, hlease, orbitAllocTry, orbitAllocTry]
  split_ifs <;> rfl

/-- A charge is seen in the lease. -/
theorem chargeLease_ne {l : OrbitKynxLease} {aligned : UInt64} (hne : aligned ≠ 0)
    {charged : Option OrbitKynxLease} (h : chargeLease (some l) aligned = some charged) :
    charged ≠ some l := by
  rw [chargeLease] at h
  split_ifs at h
  · intro hsame
    rw [← Option.some.inj h] at hsame
    have hbytes : l.arenaBytes + aligned = l.arenaBytes :=
      congrArg OrbitKynxLease.arenaBytes (Option.some.inj hsame)
    exact hne (UInt64.add_eq_left.mp hbytes)

end

/-- **A refused allocation changes nothing** exactly when no lease is there to be charged, the
request is refused before the charge, or the arena grants it. -/
theorem refused_iff (lease : Option OrbitKynxLease) (arena : OrbitArena) (bytes : UInt64)
    (os : OsAnswer) :
    ((orbitAllocTry lease arena bytes os).1.ptr = none →
        ChangesNothing lease arena (orbitAllocTry lease arena bytes os)) ↔
      lease = none ∨ bytes = 0 ∨ orbitAlignUp bytes ORBIT_ARENA_ALIGN = 0 ∨
        chargeLease lease (orbitAlignUp bytes ORBIT_ARENA_ALIGN) = none ∨
        Granted arena (orbitAlignUp bytes ORBIT_ARENA_ALIGN) os := by
  rw [orbitAllocTry]
  by_cases hbytes : bytes = 0
  · rw [if_pos hbytes]
    exact iff_of_true (fun _ => .of_fields ⟨arena.ceilingHit, rfl⟩ rfl) (.inr (.inl hbytes))
  · rw [if_neg hbytes]
    dsimp only
    generalize orbitAlignUp bytes ORBIT_ARENA_ALIGN = aligned
    by_cases haligned : aligned = 0
    · rw [if_pos haligned]
      exact iff_of_true (fun _ => .of_fields ⟨false, rfl⟩ rfl) (.inr (.inr (.inl haligned)))
    · rw [if_neg haligned, or_iff_right hbytes, or_iff_right haligned]
      cases hcharge : chargeLease lease aligned with
      | none => exact iff_of_true (fun _ => .of_fields ⟨false, rfl⟩ rfl) (.inr (.inl rfl))
      | some charged =>
        obtain ⟨hout, hptr⟩ := allocSegment_outcome { arena with ceilingHit := false } bytes aligned os
        have hgranted : Granted { arena with ceilingHit := false } aligned os ↔
            Granted arena aligned os := Iff.rfl
        rw [hgranted] at hptr
        rw [or_iff_right (Option.some_ne_none charged), ← hptr]
        dsimp only
        cases lease with
        | none =>
          rw [← Option.some.inj hcharge]
          refine iff_of_true (fun hnone => .of_fields ?_ rfl) (.inl rfl)
          obtain ⟨hit, hfields⟩ := hout.unchanged hnone
          exact ⟨hit, hfields⟩
        | some l =>
          rw [or_iff_right (Option.some_ne_none l)]
          exact ⟨fun h hnone => chargeLease_ne haligned hcharge (h hnone).charged,
            fun h hnone => absurd hnone h⟩

/-- An arena of one page with a ceiling of 1 MB, and a lease of 16 MB of which seven requests of 2 MB
are charged: the eighth is refused by the ceiling too, and then a request of 64 bytes, for which there
is room, by the lease that they have used up. -/
theorem refused_charged : ¬ ∀ (lease : Option OrbitKynxLease) (arena : OrbitArena) (bytes : UInt64)
    (os : OsAnswer), (orbitAllocTry lease arena bytes os).1.ptr = none →
    ChangesNothing lease arena (orbitAllocTry lease arena bytes os) := by
  intro h
  have hlater := (h (some ⟨7 * 2097152, 16777216⟩) { tourArena with maxRule := 1048576 } 2097152
    ⟨none, true, true⟩ (by decide)).later 64 ⟨none, true, true⟩
  revert hlater
  decide

end Runtime.Arena
