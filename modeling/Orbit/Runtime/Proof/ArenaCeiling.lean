import Orbit.Runtime.Proof.ArenaAlloc

/-!
# The ceiling of an arena

`committed_bytes` is a count that growth, a fresh segment and a reset keep in different places. In
every run it is the sum, over the segments, of what is committed in each of them, and it does not
pass the ceiling (`committed_within`).
-/

namespace Runtime.Arena

open Lib.Region (Range Apart backedIn backedTotal)

/-- The segment in use and the retired ones. -/
def segmentsOf (a : OrbitArena) : List Range :=
  (a.base.toNat, a.reservedEnd.toNat - a.base.toNat) :: a.overflowList.map rangeOf

/-- What is committed is known: in the segment in use, all below its end and no more; outside the
segments, nothing; and in all of them, the bytes that are counted, which are within the ceiling. -/
structure Counted (maxRule : UInt64) (a : OrbitArena) (committed : Nat → Bool) : Prop where
  current : ∀ x, a.base.toNat ≤ x → x < a.reservedEnd.toNat →
    (committed x = true ↔ x < a.committedEnd.toNat)
  outside : ∀ x, committed x = true → ∃ s ∈ segmentsOf a, s.1 ≤ x ∧ x < s.1 + s.2
  bytes : a.committedBytes.toNat = backedTotal committed (segmentsOf a)
  rule : a.maxRule = maxRule
  ceiling : a.committedBytes ≤ maxRule

variable {k : Nat} {w : ArenaWorld} {committed : Nat → Bool} {maxRule : UInt64}

theorem place_fields (w : ArenaWorld) (bytes : UInt64) (r : AllocResult) :
    (w.place bytes r).arena = r.arena := by
  unfold ArenaWorld.place
  cases r.ptr <;> rfl

/-- Pages that the ceiling allows. -/
theorem ceiling_room {a : OrbitArena} {more : UInt64} (hrule : a.maxRule ≠ 0)
    (h : orbitArenaCeilingReached a more = false) :
    a.committedBytes.toNat + more.toNat ≤ a.maxRule.toNat := by
  rw [orbitArenaCeilingReached, decide_eq_true hrule, Bool.true_and, Bool.or_eq_false_iff,
    decide_eq_false_iff_not, decide_eq_false_iff_not, UInt64.not_lt, UInt64.not_lt] at h
  obtain ⟨hmore, hroom⟩ := h
  rw [UInt64.le_iff_toNat_le] at hmore
  rw [UInt64.le_iff_toNat_le, UInt64.toNat_sub_of_le _ _ hmore] at hroom
  omega

/-- The segments do not overlap, and the pointers of the one in use are in order. -/
theorem ArenaInv.order (h : ArenaInv k w committed) :
    w.arena.base.toNat ≤ w.arena.cursor.toNat ∧
      w.arena.cursor.toNat ≤ w.arena.committedEnd.toNat ∧
      w.arena.committedEnd.toNat ≤ w.arena.reservedEnd.toNat ∧
      ∀ s ∈ w.arena.overflowList.map rangeOf,
        Apart (w.arena.base.toNat, w.arena.reservedEnd.toNat - w.arena.base.toNat) s :=
  ⟨h.heap.base_le, h.heap.cursor_le, h.heap.top_le, (List.pairwise_cons.mp h.heap.segments).1⟩

/-- The sum splits into the segment in use and the retired ones. -/
theorem Counted.split (hc : Counted maxRule w.arena committed) (h : ArenaInv k w committed) :
    w.arena.committedBytes.toNat = w.arena.committedEnd.toNat - w.arena.base.toNat +
      backedTotal committed (w.arena.overflowList.map rangeOf) := by
  obtain ⟨hbase, hcursor, htop, -⟩ := h.order
  rw [hc.bytes, segmentsOf, Lib.Region.backedTotal_cons,
    Lib.Region.backedIn_below w.arena.committedEnd.toNat]
  · omega
  · dsimp only
    omega
  · exact fun x hx hx' => hc.current x hx (by dsimp only at hx'; omega)

/-! ## Allocation -/

/-- A fresh reservation has nothing committed. -/
theorem Counted.fresh (hc : Counted maxRule w.arena committed) {addr size : UInt64}
    (hfresh : Fresh w.arena addr size) {x : Nat}
    (hx : addr.toNat ≤ x ∧ x < addr.toNat + size.toNat) : committed x = false := by
  rw [← Bool.not_eq_true]
  intro hcommitted
  obtain ⟨s, hs, hin, hin'⟩ := hc.outside x hcommitted
  exact hfresh.not_mem (show s ∈ (heapOf w committed).segments from hs) hin hin' hx

/-- A reservation that is given back leaves no trace. -/
theorem Counted.release (hc : Counted maxRule w.arena committed) {addr size : UInt64}
    (hfresh : Fresh w.arena addr size) (part : UInt64) (hpart : part.toNat ≤ size.toNat) :
    [OsCall.release addr size].foldl OsCall.apply committed = committed ∧
      [OsCall.commit addr part, .release addr size].foldl OsCall.apply committed = committed := by
  constructor
  · funext x
    rw [Bool.eq_iff_iff, List.foldl_cons, List.foldl_nil, apply_release]
    refine ⟨fun hx => hx.1, fun hx => ⟨hx, fun hin => ?_⟩⟩
    rw [hc.fresh hfresh hin] at hx
    cases hx
  · funext x
    rw [Bool.eq_iff_iff, List.foldl_cons, List.foldl_cons, List.foldl_nil, apply_release,
      apply_commit]
    constructor
    · rintro ⟨hx | hx, hnot⟩
      · exact hx
      · exact absurd ⟨hx.1, by omega⟩ hnot
    · refine fun hx => ⟨.inl hx, fun hin => ?_⟩
      rw [hc.fresh hfresh hin] at hx
      cases hx

/-- Growth: the pages are in the segment in use. -/
theorem Counted.grow (hc : Counted maxRule w.arena committed) (h : ArenaInv k w committed)
    (hrule : maxRule ≠ 0) {pages : UInt64}
    (hceiling : orbitArenaCeilingReached w.arena pages = false)
    (hend : (w.arena.committedEnd + pages).toNat = w.arena.committedEnd.toNat + pages.toNat)
    (hroom : (w.arena.committedEnd + pages).toNat ≤ w.arena.reservedEnd.toNat) {a : OrbitArena}
    (hbase : a.base = w.arena.base) (hreserved : a.reservedEnd = w.arena.reservedEnd)
    (hlist : a.overflowList = w.arena.overflowList) (hmax : a.maxRule = w.arena.maxRule)
    (htop : a.committedEnd = w.arena.committedEnd + pages)
    (hbytes : a.committedBytes = w.arena.committedBytes + pages) :
    Counted maxRule a (OsCall.apply committed (.commit w.arena.committedEnd pages)) := by
  obtain ⟨hle, hle', hle'', hapart⟩ := h.order
  have hallowed := ceiling_room (hc.rule ▸ hrule) hceiling
  rw [hc.rule] at hallowed
  have hlt := maxRule.toNat_lt
  have hsum : (w.arena.committedBytes + pages).toNat =
      w.arena.committedBytes.toNat + pages.toNat := by
    rw [UInt64.toNat_add, Nat.mod_eq_of_lt (by omega)]
  have hcurrent : ∀ x, w.arena.base.toNat ≤ x → x < w.arena.reservedEnd.toNat →
      (OsCall.apply committed (.commit w.arena.committedEnd pages) x = true ↔
        x < (w.arena.committedEnd + pages).toNat) := by
    intro x hx hx'
    rw [apply_commit, hc.current x hx hx']
    omega
  refine ⟨?_, ?_, ?_, hmax.trans hc.rule, ?_⟩
  · rw [hbase, hreserved, htop]
    exact hcurrent
  · intro x hx
    rw [segmentsOf, hbase, hreserved, hlist]
    rcases (apply_commit _ _ x).mp hx with hold | hnew
    · exact hc.outside x hold
    · exact ⟨_, List.mem_cons_self, by dsimp only; omega, by dsimp only; omega⟩
  · have hretired : backedTotal (OsCall.apply committed (.commit w.arena.committedEnd pages))
        (w.arena.overflowList.map rangeOf) =
        backedTotal committed (w.arena.overflowList.map rangeOf) := by
      apply Lib.Region.backedTotal_congr
      intro s hs x hx hx'
      rw [Bool.eq_iff_iff, apply_commit, or_iff_left]
      intro hin
      rcases hapart s hs with hap | hap
      · dsimp only at hap
        omega
      · dsimp only at hap
        omega
    rw [segmentsOf, hbase, hreserved, hlist, Lib.Region.backedTotal_cons, hretired,
      Lib.Region.backedIn_below (w.arena.committedEnd + pages).toNat (by dsimp only; omega)
        (by dsimp only; omega) fun x hx hx' => hcurrent x hx (by dsimp only at hx'; omega), hbytes,
      hsum, hc.split h]
    omega
  · rw [hbytes, UInt64.le_iff_toNat_le, hsum]
    exact hallowed

/-- A fresh segment: what is retired stays as it is. -/
theorem Counted.switch (hc : Counted maxRule w.arena committed) (h : ArenaInv k w committed)
    (hrule : maxRule ≠ 0) {newMem newReserve newCommit : UInt64}
    (hfresh : Fresh w.arena newMem newReserve) (hsize : newCommit.toNat ≤ newReserve.toNat)
    (hceiling : orbitArenaCeilingReached w.arena newCommit = false) {a : OrbitArena}
    (hlist : a.overflowList = ⟨w.arena.base, w.arena.reservedEnd - w.arena.base⟩ ::
      w.arena.overflowList)
    (hbase : a.base = newMem) (hreserved : a.reservedEnd = newMem + newReserve)
    (htop : a.committedEnd = newMem + newCommit) (hmax : a.maxRule = w.arena.maxRule)
    (hbytes : a.committedBytes = w.arena.committedBytes + newCommit) :
    Counted maxRule a (OsCall.apply committed (.commit newMem newCommit)) := by
  obtain ⟨hle, hle', hle'', -⟩ := h.order
  have hallowed := ceiling_room (hc.rule ▸ hrule) hceiling
  rw [hc.rule] at hallowed
  have hlt := maxRule.toNat_lt
  have hwrap := hfresh.2.1
  have hsum : (w.arena.committedBytes + newCommit).toNat =
      w.arena.committedBytes.toNat + newCommit.toNat := by
    rw [UInt64.toNat_add, Nat.mod_eq_of_lt (by omega)]
  have hend : (newMem + newReserve).toNat = newMem.toNat + newReserve.toNat := by
    rw [UInt64.toNat_add, Nat.mod_eq_of_lt (by omega)]
  have hcend : (newMem + newCommit).toNat = newMem.toNat + newCommit.toNat := by
    rw [UInt64.toNat_add, Nat.mod_eq_of_lt (by omega)]
  have hsegments : segmentsOf a = (newMem.toNat, newReserve.toNat) :: segmentsOf w.arena := by
    rw [segmentsOf, hbase, hreserved, hend, Nat.add_sub_cancel_left, hlist, List.map_cons, rangeOf,
      UInt64.toNat_sub_of_le _ _ (UInt64.le_iff_toNat_le.mpr (by omega)), segmentsOf]
  have hcurrent : ∀ x, newMem.toNat ≤ x → x < newMem.toNat + newReserve.toNat →
      (OsCall.apply committed (.commit newMem newCommit) x = true ↔
        x < newMem.toNat + newCommit.toNat) := by
    intro x hx hx'
    rw [apply_commit, hc.fresh hfresh ⟨hx, hx'⟩]
    simp only [Bool.false_eq_true, false_or, hx, true_and]
  refine ⟨?_, ?_, ?_, hmax.trans hc.rule, ?_⟩
  · rw [hbase, hreserved, htop, hend, hcend]
    exact hcurrent
  · intro x hx
    rw [hsegments]
    rcases (apply_commit _ _ x).mp hx with hold | hnew
    · obtain ⟨s, hs, hin⟩ := hc.outside x hold
      exact ⟨s, List.mem_cons_of_mem _ hs, hin⟩
    · exact ⟨_, List.mem_cons_self, hnew.1, by dsimp only; omega⟩
  · have hretired : backedTotal (OsCall.apply committed (.commit newMem newCommit))
        (segmentsOf w.arena) = backedTotal committed (segmentsOf w.arena) := by
      apply Lib.Region.backedTotal_congr
      intro s hs x hx hx'
      rw [Bool.eq_iff_iff, apply_commit, or_iff_left]
      intro hin
      exact hfresh.not_mem (show s ∈ (heapOf w committed).segments from hs) hx hx'
        ⟨hin.1, by omega⟩
    rw [hsegments, Lib.Region.backedTotal_cons, hretired, ← hc.bytes, hbytes, hsum,
      Lib.Region.backedIn_below (newMem.toNat + newCommit.toNat) (Nat.le_add_right _ _)
        (Nat.add_le_add_left hsize _) hcurrent]
    omega
  · rw [hbytes, UInt64.le_iff_toNat_le, hsum]
    exact hallowed

theorem Counted.allocSegment (hc : Counted maxRule w.arena committed) (h : ArenaInv k w committed)
    (hrule : maxRule ≠ 0) {bytes aligned : UInt64} {os : OsAnswer} {r : AllocResult}
    (hout : AllocOutcome w.arena bytes aligned os r)
    (hfresh : ∀ addr, os.reserve = some addr → Fresh w.arena addr (overflowReserve w.arena aligned))
    (hafter : ArenaInv k (w.place bytes r) (r.calls.foldl OsCall.apply committed)) :
    Counted maxRule r.arena (r.calls.foldl OsCall.apply committed) := by
  cases hout with
  | refused hit calls back =>
    have hsame : calls.foldl OsCall.apply committed = committed := by
      rcases back with rfl | ⟨newMem, hmem, rfl | ⟨hreserve, hpages, rfl⟩⟩
      · rfl
      · exact (hc.release (hfresh newMem hmem) 0 (Nat.zero_le _)).1
      · exact (hc.release (hfresh newMem hmem) _
          (overflow_sizes h.paged.size hreserve hpages).2).2
    dsimp only
    rw [hsame]
    exact ⟨hc.current, hc.outside, hc.bytes, hc.rule, hc.ceiling⟩
  | fast fits past => exact ⟨hc.current, hc.outside, hc.bytes, hc.rule, hc.ceiling⟩
  | slow fits past pages ceiling commit =>
    obtain ⟨-, hcursor, htop, -⟩ := hafter.order
    change (w.arena.cursor + aligned).toNat ≤
      (w.arena.committedEnd + slowPages w.arena aligned).toNat at hcursor
    change (w.arena.committedEnd + slowPages w.arena aligned).toNat ≤ w.arena.reservedEnd.toNat
      at htop
    rw [UInt64.lt_iff_toNat_lt] at past
    have hend : (w.arena.committedEnd + slowPages w.arena aligned).toNat =
        w.arena.committedEnd.toNat + (slowPages w.arena aligned).toNat := by
      -- a sum that wraps would be below the old end
      have hlt := w.arena.committedEnd.toNat_lt
      have hlt' := (slowPages w.arena aligned).toNat_lt
      rw [UInt64.toNat_add w.arena.committedEnd] at hcursor ⊢
      omega
    exact hc.grow h hrule ceiling hend htop rfl rfl rfl rfl rfl rfl
  | overflow newMem full reserve pages ceiling memory commit malloc =>
    exact hc.switch h hrule (hfresh newMem memory) (overflow_sizes h.paged.size reserve pages).2
      ceiling rfl rfl rfl rfl rfl rfl

theorem Counted.alloc (hc : Counted maxRule w.arena committed) (h : ArenaInv k w committed)
    (hrule : maxRule ≠ 0) (lease : Option OrbitKynxLease) (bytes : UInt64) (os : OsAnswer)
    (hfresh : ∀ addr, os.reserve = some addr →
      Fresh w.arena addr (overflowReserve w.arena (orbitAlignUp bytes ORBIT_ARENA_ALIGN))) :
    Counted maxRule (orbitAllocTry lease w.arena bytes os).1.arena
      ((orbitAllocTry lease w.arena bytes os).1.calls.foldl OsCall.apply committed) := by
  have hafter := h.alloc lease bytes os hfresh
  have hc' : Counted maxRule { w.arena with ceilingHit := false } committed :=
    ⟨hc.current, hc.outside, hc.bytes, hc.rule, hc.ceiling⟩
  revert hafter
  unfold orbitAllocTry
  dsimp only
  split_ifs with hbytes hne
  · exact fun _ => hc
  · exact fun _ => hc'
  · cases chargeLease lease (orbitAlignUp bytes ORBIT_ARENA_ALIGN) with
    | none => exact fun _ => hc'
    | some charged =>
      intro hafter
      have h' := h.refuse false
      rw [← place_arena w { w.arena with ceilingHit := false }] at hafter
      exact Counted.allocSegment (w := { w with arena := { w.arena with ceilingHit := false } }) hc' h'
        hrule (allocSegment_outcome _ _ _ _).1 hfresh hafter

/-! ## Reset -/

theorem Counted.reset (hc : Counted maxRule w.arena committed) (h : ArenaInv k w committed) :
    Counted maxRule (orbitArenaReset w.arena).1
      ((orbitArenaReset w.arena).2.foldl OsCall.apply committed) := by
  obtain ⟨hle, hle', hle'', hapart⟩ := h.order
  have hafter := h.reset.order
  have hsplit := hc.split h
  revert hafter
  obtain ⟨-, hroom⟩ := resetKeep_spec h.paged.size h.paged.base h.paged.reserved
    (hle.trans (hle'.trans hle''))
  unfold orbitArenaReset
  generalize resetKeep w.arena = keep at hroom ⊢
  have hkeep : (w.arena.base + keep).toNat = w.arena.base.toNat + keep.toNat := by
    have hlt := w.arena.reservedEnd.toNat_lt
    rw [UInt64.toNat_add, Nat.mod_eq_of_lt (by omega)]
  dsimp only
  generalize hcend : (if w.arena.committedEnd > w.arena.base + keep then w.arena.base + keep
    else w.arena.committedEnd) = cend
  rintro ⟨-, hbase, htop, -⟩
  change w.arena.base.toNat ≤ cend.toNat at hbase
  change cend.toNat ≤ w.arena.reservedEnd.toNat at htop
  have hmin : cend.toNat = min w.arena.committedEnd.toNat (w.arena.base.toNat + keep.toNat) := by
    rw [← hcend]
    split_ifs with hcut
    · rw [gt_iff_lt, UInt64.lt_iff_toNat_lt, hkeep] at hcut
      omega
    · rw [gt_iff_lt, UInt64.lt_iff_toNat_lt, hkeep] at hcut
      omega
  -- what is committed then: the segment in use up to its new end
  have hcommitted : ∀ x, ((w.arena.overflowList.map fun o => OsCall.release o.ptr o.size) ++
        if w.arena.committedEnd > w.arena.base + keep then
          [OsCall.decommit (w.arena.base + keep) (w.arena.committedEnd - (w.arena.base + keep))]
        else []).foldl OsCall.apply committed x = true ↔
      w.arena.base.toNat ≤ x ∧ x < cend.toNat := by
    intro x
    have hreleased : (w.arena.overflowList.map fun o => OsCall.release o.ptr o.size).foldl
        OsCall.apply committed x = true ↔
          w.arena.base.toNat ≤ x ∧ x < w.arena.committedEnd.toNat := by
      rw [foldl_release]
      constructor
      · rintro ⟨hx, hnot⟩
        obtain ⟨s, hs, hin, hin'⟩ := hc.outside x hx
        rcases List.mem_cons.mp hs with rfl | hs
        · dsimp only at hin hin'
          exact ⟨hin, (hc.current x hin (by omega)).mp hx⟩
        · obtain ⟨o, ho, rfl⟩ := List.mem_map.mp hs
          exact absurd ⟨hin, hin'⟩ (hnot o ho)
      · rintro ⟨hx, hx'⟩
        refine ⟨(hc.current x hx (by omega)).mpr hx', fun o ho hin => ?_⟩
        rcases hapart (rangeOf o) (List.mem_map_of_mem ho) with hap | hap
        · change _ ≤ o.ptr.toNat at hap
          dsimp only at hap
          omega
        · change o.ptr.toNat + o.size.toNat ≤ _ at hap
          dsimp only at hap
          omega
    rw [List.foldl_append]
    by_cases hcut : w.arena.committedEnd > w.arena.base + keep
    · rw [if_pos hcut, List.foldl_cons, List.foldl_nil]
      have hsize := UInt64.toNat_sub_of_le _ _ (UInt64.le_of_lt hcut)
      rw [gt_iff_lt, UInt64.lt_iff_toNat_lt, hkeep] at hcut
      rw [hkeep] at hsize
      rw [OsCall.apply, Bool.and_eq_true, Bool.not_eq_true', decide_eq_false_iff_not, hreleased,
        hkeep, hsize]
      omega
    · rw [if_neg hcut, List.foldl_nil, hreleased]
      rw [gt_iff_lt, UInt64.lt_iff_toNat_lt, hkeep] at hcut
      omega
  have hsize : (cend - w.arena.base).toNat = cend.toNat - w.arena.base.toNat :=
    UInt64.toNat_sub_of_le _ _ hbase
  refine ⟨fun x hx hx' => (hcommitted x).trans (and_iff_right hx), fun x hx => ?_, ?_, hc.rule, ?_⟩
  · obtain ⟨hx, hx'⟩ := (hcommitted x).mp hx
    exact ⟨_, List.mem_cons_self, hx, by dsimp only; omega⟩
  · rw [segmentsOf]
    dsimp only
    rw [hsize, List.map_nil, Lib.Region.backedTotal_cons, Lib.Region.backedIn_below cend.toNat
      hbase (by dsimp only; omega) fun x hx _ => (hcommitted x).trans (and_iff_right hx)]
    rfl
  · have hceiling := hc.ceiling
    rw [UInt64.le_iff_toNat_le] at hceiling ⊢
    dsimp only
    omega

/-! ## Runs -/

/-- An operation keeps the count. -/
theorem Counted.step (hc : Counted maxRule w.arena committed) (h : ArenaInv k w committed)
    (hrule : maxRule ≠ 0) {op : ArenaOp} (hfresh : FreshAnswer w op) :
    Counted maxRule (arenaStep w op).1.arena
      ((arenaStep w op).2.foldl OsCall.apply committed) := by
  cases op with
  | alloc lease bytes os =>
    rw [arenaStep]
    dsimp only
    rw [place_fields]
    exact hc.alloc h hrule lease bytes os hfresh
  | checkpoint => exact hc
  | rewind i =>
    rw [arenaStep]
    cases w.marks[i]? with
    | none => exact hc
    | some m =>
      dsimp only
      unfold orbitArenaRewind
      by_cases hgen : m.checkpoint.generation ≠ w.arena.generation
      · rw [if_pos hgen]
        exact hc
      · rw [if_neg hgen]
        by_cases hoffset : m.checkpoint.offset > w.arena.cursor - w.arena.base
        · rw [if_pos hoffset]
          exact hc
        · rw [if_neg hoffset]
          exact ⟨hc.current, hc.outside, hc.bytes, hc.rule, hc.ceiling⟩
  | reset => exact hc.reset h

theorem Counted.run (hc : Counted maxRule w.arena committed) (h : ArenaInv k w committed)
    (hrule : maxRule ≠ 0) {ops : List ArenaOp} (hfresh : FreshAnswers w ops) :
    Counted maxRule (arenaRun w committed ops).1.arena (arenaRun w committed ops).2 := by
  induction ops generalizing w committed with
  | nil => exact hc
  | cons op ops ih => exact ih (hc.step h hrule hfresh.1) (h.step hfresh.1) hfresh.2

/-- What a creation commits. -/
theorem create_fields {pageSize initialCapacity : UInt64} {os : OsAnswer} {a : OrbitArena}
    {calls : List OsCall}
    (hcreate : orbitArenaCreate pageSize maxRule initialCapacity os = (some a, calls)) :
    calls = [.commit a.base a.committedBytes] ∧ a.committedEnd = a.base + a.committedBytes ∧
      a.committedBytes ≠ 0 ∧ a.overflowList = [] ∧ a.maxRule = maxRule := by
  unfold orbitArenaCreate at hcreate
  dsimp only at hcreate
  generalize orbitAlignUp (if initialCapacity > ORBIT_ARENA_DEFAULT_RESERVE then
    initialCapacity else ORBIT_ARENA_DEFAULT_RESERVE) pageSize = reserve at hcreate
  generalize orbitAlignUp (if initialCapacity > 0 then initialCapacity
    else ORBIT_ARENA_DEFAULT_COMMIT) pageSize = commit at hcreate
  generalize (if commit > reserve then commit else reserve) = size at hcreate
  cases hres : os.reserve with
  | none =>
    rw [hres] at hcreate
    dsimp only at hcreate
    split_ifs at hcreate <;> cases hcreate
  | some reserved =>
    rw [hres] at hcreate
    dsimp only at hcreate
    split_ifs at hcreate with hreserve hcommit
    · cases hcreate
    · cases hcreate
    · cases hcreate
    · cases hcreate
    · obtain ⟨ha, rfl⟩ := Prod.mk.inj hcreate
      rw [← Option.some.inj ha]
      exact ⟨rfl, rfl, hcommit, rfl, rfl⟩

theorem create_counted {pageSize initialCapacity : UInt64} {os : OsAnswer} {a : OrbitArena}
    {calls : List OsCall}
    (hcreate : orbitArenaCreate pageSize maxRule initialCapacity os = (some a, calls))
    (hwithin : a.committedBytes ≤ maxRule)
    (h : ArenaInv k (ArenaWorld.start a) (calls.foldl OsCall.apply fun _ => false)) :
    Counted maxRule a (calls.foldl OsCall.apply fun _ => false) := by
  obtain ⟨hbase, hcursor, htop, -⟩ := h.order
  change a.base.toNat ≤ a.cursor.toNat at hbase
  change a.cursor.toNat ≤ a.committedEnd.toNat at hcursor
  change a.committedEnd.toNat ≤ a.reservedEnd.toNat at htop
  obtain ⟨rfl, hend, hne, hlist, hmax⟩ := create_fields hcreate
  have hsum : a.committedEnd.toNat = a.base.toNat + a.committedBytes.toNat := by
    have hpos : 0 < a.committedBytes.toNat :=
      Nat.pos_of_ne_zero fun h0 => hne (UInt64.toNat_inj.mp h0)
    have hlt := a.base.toNat_lt
    have hlt' := a.committedBytes.toNat_lt
    rw [hend, UInt64.toNat_add] at hcursor ⊢
    omega
  have hcommitted : ∀ x, [OsCall.commit a.base a.committedBytes].foldl OsCall.apply
      (fun _ => false) x = true ↔ a.base.toNat ≤ x ∧ x < a.committedEnd.toNat := by
    intro x
    rw [List.foldl_cons, List.foldl_nil, apply_commit, hsum]
    exact or_iff_right Bool.false_ne_true
  refine ⟨fun x hx _ => (hcommitted x).trans (and_iff_right hx), fun x hx => ?_, ?_, hmax, hwithin⟩
  · obtain ⟨hx, hx'⟩ := (hcommitted x).mp hx
    exact ⟨_, List.mem_cons_self, hx, by dsimp only; omega⟩
  · rw [segmentsOf, hlist, List.map_nil, Lib.Region.backedTotal_cons,
      Lib.Region.backedIn_below a.committedEnd.toNat (by dsimp only; omega)
        (by dsimp only; omega) fun x hx _ => (hcommitted x).trans (and_iff_right hx), hsum]
    change _ = a.base.toNat + a.committedBytes.toNat - a.base.toNat + 0
    omega

/-- **In every run the bytes counted are those committed in the segments, and they are within the
ceiling**, as long as the first ones are and the operating system answers with fresh, page-aligned
reservations. -/
theorem committed_within {pageSize maxRule initialCapacity : UInt64} {os : OsAnswer} {a : OrbitArena}
    {calls : List OsCall} {k : Nat} (hk : 4 ≤ k) (hpage : pageSize.toNat = 2 ^ k)
    (hos : ∀ addr, os.reserve = some addr → pageSize.toNat ∣ addr.toNat ∧
      addr.toNat + (createReserve pageSize initialCapacity).toNat < 2 ^ 64)
    (hcreate : orbitArenaCreate pageSize maxRule initialCapacity os = (some a, calls))
    (hwithin : a.committedBytes ≤ maxRule) (ops : List ArenaOp)
    (hfresh : FreshAnswers (ArenaWorld.start a) ops) :
    let r := arenaRun (ArenaWorld.start a) (calls.foldl OsCall.apply fun _ => false) ops
    r.1.arena.committedBytes.toNat = ((segmentsOf r.1.arena).map (backedIn r.2)).sum ∧
      r.1.arena.committedBytes ≤ maxRule := by
  intro r
  have hinv : ArenaInv k (ArenaWorld.start a) (calls.foldl OsCall.apply fun _ => false) :=
    create_inv hk hpage hos hcreate
  have hrule : maxRule ≠ 0 := by
    rintro rfl
    exact (create_fields hcreate).2.2.1 (UInt64.le_zero_iff.mp hwithin)
  have hcounted := (create_counted hcreate hwithin hinv).run hinv hrule hfresh
  exact ⟨hcounted.bytes, hcounted.ceiling⟩

/-- An arena of one page with a ceiling of 68 MB. -/
def ceilingArena : OrbitArena := { tourArena with maxRule := 0x4400000 }

/-- The tour under the ceiling: growth, a fresh segment, the way back and a reset. -/
theorem committed_within_tour :
    (arenaRun (ArenaWorld.start ceilingArena)
      ([OsCall.commit 0x10000000 4096].foldl OsCall.apply fun _ => false)
      tourRun).1.arena.committedBytes ≤ 0x4400000 := by
  have hcreate : orbitArenaCreate 4096 0x4400000 4096 ⟨some 0x10000000, true, true⟩ =
      (some ceilingArena, [.commit 0x10000000 4096]) := by decide
  refine (committed_within (k := 12) (by decide) rfl ?_ hcreate (by decide) tourRun
    ⟨nofun, trivial, nofun, ?_, trivial, nofun, trivial, nofun, trivial⟩).2
  · intro addr haddr
    rw [← Option.some.inj haddr]
    decide
  · intro addr haddr
    rw [← Option.some.inj haddr]
    refine ⟨by decide, by decide, .inr (by decide), ?_⟩
    intro o ho
    cases ho

end Runtime.Arena
