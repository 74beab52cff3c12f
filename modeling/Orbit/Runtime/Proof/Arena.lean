import Mathlib
import Orbit.Lib.Region
import Orbit.Runtime.Arena

/-!
# The arena hands out blocks that do not overlap

The arena is a heap of segments (`heapOf`), and each of its operations is one of the heap's, so the
invariant of the heap holds in every run whose reservations are fresh (`arena_sound`).
-/

namespace Runtime.Arena

open Lib.Region (Heap Apart Within)

/-! ## Rounding up -/

theorem natAnd_high (M k : Nat) (hM : M < 2 ^ 64) (hk : k ≤ 64) :
    M &&& (2 ^ 64 - 2 ^ k) = 2 ^ k * (M / 2 ^ k) := by
  have hmask : 2 ^ 64 - 2 ^ k = (2 ^ (64 - k) - 1) * 2 ^ k := by
    rw [Nat.sub_mul, ← Nat.pow_add, Nat.sub_add_cancel hk, Nat.one_mul]
  apply Nat.eq_of_testBit_eq
  intro j
  rw [hmask, Nat.testBit_and, Nat.mul_comm (_ - 1), Nat.testBit_two_pow_mul, Nat.testBit_two_pow_mul,
    Nat.testBit_two_pow_sub_one, Nat.testBit_div_two_pow]
  by_cases hj : k ≤ j
  · rw [Nat.sub_add_cancel hj]
    by_cases hj' : j < 64
    · simp [hj]
      omega
    · rw [Nat.testBit_lt_two_pow
        (Nat.lt_of_lt_of_le hM (Nat.pow_le_pow_right (by decide) (Nat.le_of_not_lt hj')))]
      simp
  · simp [hj]

/-- A rounding that does not overflow is the least multiple that is not below. -/
theorem alignUp_spec {size alignment : UInt64} {k : Nat} (hk : alignment.toNat = 2 ^ k)
    (h : orbitAlignUp size alignment ≠ 0) :
    size.toNat ≤ (orbitAlignUp size alignment).toNat ∧
      2 ^ k ∣ (orbitAlignUp size alignment).toNat ∧
      ∀ m, 2 ^ k ∣ m → size.toNat ≤ m → (orbitAlignUp size alignment).toNat ≤ m := by
  have hlt := alignment.toNat_lt
  have hpos : 0 < 2 ^ k := Nat.two_pow_pos k
  have hone : (alignment - 1).toNat = 2 ^ k - 1 := by
    rw [UInt64.toNat_sub_of_le _ _ (by rw [UInt64.le_iff_toNat_le, hk]; exact hpos), hk]
    rfl
  unfold orbitAlignUp at h ⊢
  split at h
  · exact absurd rfl h
  · next hle =>
    rw [if_neg hle]
    have hk64 : k < 64 := by
      rw [hk] at hlt
      exact (Nat.pow_lt_pow_iff_right (by decide)).mp hlt
    have hroom : size.toNat + (2 ^ k - 1) < 2 ^ 64 := by
      rw [gt_iff_lt, UInt64.lt_iff_toNat_lt, UInt64.toNat_sub_of_le _ _ (UInt64.le_iff_toNat_le.mpr (by
        rw [hone, show SIZE_MAX.toNat = 2 ^ 64 - 1 from rfl]; omega)), hone,
        show SIZE_MAX.toNat = 2 ^ 64 - 1 from rfl] at hle
      omega
    have hval : ((size + (alignment - 1)) &&& ~~~(alignment - 1)).toNat =
        2 ^ k * ((size.toNat + (2 ^ k - 1)) / 2 ^ k) := by
      rw [UInt64.toNat_and, UInt64.toNat_not, UInt64.toNat_add, hone, Nat.mod_eq_of_lt hroom,
        ← natAnd_high _ k hroom (Nat.le_of_lt hk64)]
      congr 1
      rw [show UInt64.size = 2 ^ 64 from rfl]
      omega
    rw [hval]
    refine ⟨?_, Nat.dvd_mul_right .., fun m hm hsize => ?_⟩
    · have := Nat.lt_mul_div_succ (size.toNat + (2 ^ k - 1)) hpos
      rw [Nat.mul_add] at this
      omega
    · obtain ⟨q, rfl⟩ := hm
      apply Nat.mul_le_mul_left _
      rw [Nat.div_le_iff_le_mul_add_pred hpos]
      omega

theorem dvd_alignUp {size alignment : UInt64} {k : Nat} (hk : alignment.toNat = 2 ^ k) :
    2 ^ k ∣ (orbitAlignUp size alignment).toNat := by
  by_cases h : orbitAlignUp size alignment = 0
  · rw [h]
    exact Nat.dvd_zero _
  · exact (alignUp_spec hk h).2.1

/-! ## The heap of an arena -/

def rangeOf (o : OrbitArenaOverflow) : Lib.Region.Range := (o.ptr.toNat, o.size.toNat)

def heapOf (w : ArenaWorld) (committed : Nat → Bool) : Heap where
  base := w.arena.base.toNat
  cursor := w.arena.cursor.toNat
  top := w.arena.committedEnd.toNat
  limit := w.arena.reservedEnd.toNat
  retired := w.arena.overflowList.map rangeOf
  live := w.live.map fun b => ⟨(b.addr.toNat, b.size.toNat), b.born⟩
  marks := w.marks.map fun m => ⟨m.checkpoint.offset.toNat, m.born⟩
  count := w.returned
  backed := fun x => committed x = true

/-- The segments of an arena begin and end with a page. -/
structure Paged (k : Nat) (a : OrbitArena) : Prop where
  page : 4 ≤ k
  size : a.pageSize.toNat = 2 ^ k
  base : 2 ^ k ∣ a.base.toNat
  committed : 2 ^ k ∣ a.committedEnd.toNat
  reserved : 2 ^ k ∣ a.reservedEnd.toNat

structure ArenaInv (k : Nat) (w : ArenaWorld) (committed : Nat → Bool) : Prop where
  paged : Paged k w.arena
  heap : (heapOf w committed).Inv 16
  bytes : ∀ b ∈ w.live, b.bytes.toNat ≤ b.size.toNat

/-- A reservation of the operating system: whole pages, apart from the segments of the arena. -/
def Fresh (a : OrbitArena) (addr size : UInt64) : Prop :=
  a.pageSize.toNat ∣ addr.toNat ∧ addr.toNat + size.toNat < 2 ^ 64 ∧
    Apart (addr.toNat, size.toNat) (a.base.toNat, a.reservedEnd.toNat - a.base.toNat) ∧
    ∀ o ∈ a.overflowList, Apart (addr.toNat, size.toNat) (rangeOf o)

variable {k : Nat} {w : ArenaWorld} {committed : Nat → Bool}

theorem sixteen_dvd (hk : 4 ≤ k) {n : Nat} (h : 2 ^ k ∣ n) : 16 ∣ n :=
  Nat.dvd_trans (Nat.pow_dvd_pow 2 hk) h

/-- Pages that are not the arena's do not matter to it. -/
theorem ArenaInv.recount (h : ArenaInv k w committed) {committed' : Nat → Bool}
    (hkeep : ∀ s ∈ (heapOf w committed).segments, ∀ x, s.1 ≤ x → x < s.1 + s.2 →
      committed x = true → committed' x = true) : ArenaInv k w committed' :=
  ⟨h.paged, h.heap.recount hkeep, h.bytes⟩

/-! ## Allocation -/

theorem place_some (w : ArenaWorld) (bytes ptr : UInt64) (a : OrbitArena) (calls : List OsCall) :
    w.place bytes ⟨some ptr, a, calls⟩ = { w with
      arena := a
      live := ⟨ptr, bytes, orbitAlignUp bytes ORBIT_ARENA_ALIGN, w.returned⟩ :: w.live
      returned := w.returned + 1 } := rfl

/-- A block is handed out of a heap that has made room for it. -/
theorem ArenaInv.take (h : ArenaInv k w committed) {bytes ptr : UInt64} {a : OrbitArena}
    (calls : List OsCall) {H : Heap} (hinv : H.Inv 16) (hbytes : bytes ≠ 0)
    (hne : orbitAlignUp bytes ORBIT_ARENA_ALIGN ≠ 0) (hpaged : Paged k a)
    (hptr : ptr.toNat = H.cursor) (hbase : a.base.toNat = H.base)
    (hcursor : a.cursor.toNat = H.cursor + (orbitAlignUp bytes ORBIT_ARENA_ALIGN).toNat)
    (hfits : H.cursor + (orbitAlignUp bytes ORBIT_ARENA_ALIGN).toNat ≤ H.top)
    (htop : a.committedEnd.toNat = H.top) (hlimit : a.reservedEnd.toNat = H.limit)
    (hretired : a.overflowList.map rangeOf = H.retired)
    (hlive : H.live = (heapOf w committed).live) (hmarks : H.marks = (heapOf w committed).marks)
    (hcount : H.count = w.returned)
    (hbacked : (fun x => calls.foldl OsCall.apply committed x = true) = H.backed) :
    ArenaInv k (w.place bytes ⟨some ptr, a, calls⟩) (calls.foldl OsCall.apply committed) := by
  obtain ⟨hle, hdvd, -⟩ := alignUp_spec (show ORBIT_ARENA_ALIGN.toNat = 2 ^ 4 from rfl) hne
  have hpos : 0 < bytes.toNat := Nat.pos_of_ne_zero fun h0 => hbytes (UInt64.toNat.inj h0)
  rw [place_some]
  refine ⟨hpaged, ?_, ?_⟩
  · have htake := hinv.take (Nat.lt_of_lt_of_le hpos hle) hdvd hfits
    unfold Heap.take at htake
    rw [hlive, hmarks, hcount, ← hbacked, ← hretired, ← hlimit, ← htop, ← hcursor, ← hbase, ← hptr]
      at htake
    exact htake
  · rintro b (_ | ⟨_, hb⟩)
    · exact hle
    · exact h.bytes b hb

/-- An allocation that hands nothing out. -/
theorem ArenaInv.refuse (h : ArenaInv k w committed) (hit : Bool) :
    ArenaInv k { w with arena := { w.arena with ceilingHit := hit } } committed :=
  ⟨⟨h.paged.page, h.paged.size, h.paged.base, h.paged.committed, h.paged.reserved⟩, h.heap, h.bytes⟩

theorem apply_commit (addr size : UInt64) (x : Nat) :
    OsCall.apply committed (.commit addr size) x = true ↔
      committed x = true ∨ addr.toNat ≤ x ∧ x < addr.toNat + size.toNat := by
  unfold OsCall.apply
  rw [Bool.or_eq_true, decide_eq_true_eq]

/-- The fast path. -/
theorem ArenaInv.allocBump (h : ArenaInv k w committed) {bytes : UInt64} (hbytes : bytes ≠ 0)
    {aligned : UInt64} (haligned : orbitAlignUp bytes ORBIT_ARENA_ALIGN = aligned)
    (hne : aligned ≠ 0) (hcursor : (w.arena.cursor + aligned).toNat =
      w.arena.cursor.toNat + aligned.toNat)
    (hfits : w.arena.cursor.toNat + aligned.toNat ≤ w.arena.committedEnd.toNat) :
    ArenaInv k (w.place bytes
      ⟨some w.arena.cursor, bump w.arena (w.arena.cursor + aligned) bytes aligned, []⟩)
      committed := by
  subst haligned
  exact h.take [] h.heap hbytes hne
    ⟨h.paged.page, h.paged.size, h.paged.base, h.paged.committed, h.paged.reserved⟩ rfl rfl hcursor
    hfits rfl rfl rfl rfl rfl rfl rfl

/-- The slow path. -/
theorem ArenaInv.allocCommit (h : ArenaInv k w committed) {bytes : UInt64} (os : OsAnswer)
    (hbytes : bytes ≠ 0) {aligned : UInt64}
    (haligned : orbitAlignUp bytes ORBIT_ARENA_ALIGN = aligned) (hne : aligned ≠ 0)
    (hcursor : (w.arena.cursor + aligned).toNat = w.arena.cursor.toNat + aligned.toNat)
    (hfits : w.arena.cursor.toNat + aligned.toNat ≤ w.arena.reservedEnd.toNat)
    (hpast : w.arena.committedEnd < w.arena.cursor + aligned) :
    ArenaInv k
      (w.place bytes (allocCommit w.arena (w.arena.cursor + aligned) bytes aligned os))
      ((allocCommit w.arena (w.arena.cursor + aligned) bytes aligned os).calls.foldl OsCall.apply
        committed) := by
  subst haligned
  have hneeded := UInt64.toNat_sub_of_le _ _ (UInt64.le_of_lt hpast)
  rw [UInt64.lt_iff_toNat_lt, hcursor] at hpast
  rw [hcursor] at hneeded
  unfold Arena.allocCommit
  dsimp only
  generalize hpages : orbitAlignUp
    (w.arena.cursor + orbitAlignUp bytes ORBIT_ARENA_ALIGN - w.arena.committedEnd)
    w.arena.pageSize = pages
  split_ifs with hzero hceil hcommit
  · exact h
  · exact h.refuse true
  · exact h
  · obtain ⟨hle, hdvd, hleast⟩ := alignUp_spec h.paged.size (by rw [hpages]; exact hzero)
    rw [hpages, hneeded] at hle
    rw [hpages] at hdvd
    rw [hpages, hneeded] at hleast
    have htop : w.arena.committedEnd.toNat ≤ w.arena.reservedEnd.toNat := h.heap.top_le
    have hroom := hleast _ (Nat.dvd_sub h.paged.reserved h.paged.committed)
      (Nat.sub_le_sub_right hfits _)
    have hlt := w.arena.reservedEnd.toNat_lt
    have hend : (w.arena.committedEnd + pages).toNat = w.arena.committedEnd.toNat + pages.toNat := by
      rw [UInt64.toNat_add, Nat.mod_eq_of_lt (by omega)]
    have hgrow := h.heap.grow (w.arena.committedEnd.toNat + pages.toNat)
      (fun x => OsCall.apply committed (.commit w.arena.committedEnd pages) x = true)
      (Nat.le_add_right ..) (by change _ ≤ w.arena.reservedEnd.toNat; omega)
      (fun x hx => (apply_commit _ _ x).mpr (.inl hx)) ?_
    · refine h.take _ hgrow hbytes hne ?_ ?_ ?_ ?_ ?_ ?_ ?_ ?_ rfl rfl rfl rfl
      · exact ⟨h.paged.page, h.paged.size, h.paged.base,
          hend.symm ▸ Nat.dvd_add h.paged.committed hdvd, h.paged.reserved⟩
      · rfl
      · rfl
      · exact hcursor
      · change w.arena.cursor.toNat + _ ≤ w.arena.committedEnd.toNat + pages.toNat
        omega
      · exact hend
      · rfl
      · rfl
    · intro x hx hx'
      rw [apply_commit]
      by_cases hold : x < w.arena.committedEnd.toNat
      · exact .inl (h.heap.backed x hx hold)
      · exact .inr ⟨Nat.le_of_not_lt hold, hx'⟩

theorem apply_release (addr size : UInt64) (x : Nat) :
    OsCall.apply committed (.release addr size) x = true ↔
      committed x = true ∧ ¬ (addr.toNat ≤ x ∧ x < addr.toNat + size.toNat) := by
  unfold OsCall.apply
  rw [Bool.and_eq_true, Bool.not_eq_true', decide_eq_false_iff_not]

theorem Fresh.apart {addr size : UInt64} (h : Fresh w.arena addr size) {s : Lib.Region.Range}
    (hs : s ∈ (heapOf w committed).segments) : Apart (addr.toNat, size.toNat) s := by
  unfold Heap.segments heapOf at hs
  rcases List.mem_cons.mp hs with rfl | hs
  · exact h.2.2.1
  · obtain ⟨o, ho, rfl⟩ := List.mem_map.mp hs
    exact h.2.2.2 o ho

/-- A fresh range has no address of the segments. -/
theorem Fresh.not_mem {addr size : UInt64} (h : Fresh w.arena addr size) {s : Lib.Region.Range}
    (hs : s ∈ (heapOf w committed).segments) {x : Nat} (hx : s.1 ≤ x) (hx' : x < s.1 + s.2) :
    ¬ (addr.toNat ≤ x ∧ x < addr.toNat + size.toNat) := by
  rcases h.apart hs with hap | hap
  · dsimp only at hap
    omega
  · dsimp only at hap
    omega

/-- What an overflow asks for has room for the block. -/
theorem overflow_sizes {a : OrbitArena} (hk : a.pageSize.toNat = 2 ^ k) {aligned : UInt64}
    (hreserve : overflowReserve a aligned ≠ 0) (hcommit : overflowCommit a aligned ≠ 0) :
    aligned.toNat ≤ (overflowCommit a aligned).toNat ∧
      (overflowCommit a aligned).toNat ≤ (overflowReserve a aligned).toNat := by
  obtain ⟨hle, hdvd, -⟩ := alignUp_spec hk hreserve
  obtain ⟨hle', -, hleast⟩ := alignUp_spec hk hcommit
  have hmax : aligned.toNat ≤ (if aligned > ORBIT_ARENA_DEFAULT_COMMIT then aligned
      else ORBIT_ARENA_DEFAULT_COMMIT).toNat ∧ (if aligned > ORBIT_ARENA_DEFAULT_COMMIT then aligned
      else ORBIT_ARENA_DEFAULT_COMMIT).toNat ≤ (if aligned > ORBIT_ARENA_DEFAULT_RESERVE then aligned
      else ORBIT_ARENA_DEFAULT_RESERVE).toNat := by
    have h1 : ORBIT_ARENA_DEFAULT_COMMIT.toNat = 65536 := rfl
    have h2 : ORBIT_ARENA_DEFAULT_RESERVE.toNat = 67108864 := rfl
    simp only [gt_iff_lt, UInt64.lt_iff_toNat_lt, h1, h2]
    split_ifs <;> omega
  exact ⟨hmax.1.trans hle', hleast _ hdvd (hmax.2.trans hle)⟩

/-- The overflow path. -/
theorem ArenaInv.allocOverflow (h : ArenaInv k w committed) {bytes : UInt64} (os : OsAnswer)
    (hbytes : bytes ≠ 0) {aligned : UInt64}
    (haligned : orbitAlignUp bytes ORBIT_ARENA_ALIGN = aligned) (hne : aligned ≠ 0)
    (hfresh : ∀ addr, os.reserve = some addr → Fresh w.arena addr (overflowReserve w.arena aligned)) :
    ArenaInv k (w.place bytes (allocOverflow w.arena bytes aligned os))
      ((allocOverflow w.arena bytes aligned os).calls.foldl OsCall.apply committed) := by
  subst haligned
  unfold Arena.allocOverflow
  dsimp only
  generalize hres : overflowReserve w.arena (orbitAlignUp bytes ORBIT_ARENA_ALIGN) = newReserve
    at hfresh ⊢
  generalize hcom : overflowCommit w.arena (orbitAlignUp bytes ORBIT_ARENA_ALIGN) = newCommit
  cases hos : os.reserve with
  | none =>
    dsimp only
    split_ifs
    · exact h
    · exact h
    · exact h.refuse true
    · exact h
  | some newMem =>
    have hnew := hfresh newMem hos
    dsimp only
    split_ifs with hzero hzero' hceil hcommit hmalloc
    · exact h
    · exact h
    · exact h.refuse true
    · refine h.recount fun s hs x hx hx' hold => ?_
      exact (apply_release _ _ x).mpr ⟨hold, hnew.not_mem hs hx hx'⟩
    · refine h.recount fun s hs x hx hx' hold => ?_
      exact (apply_release _ _ x).mpr ⟨(apply_commit _ _ x).mpr (.inl hold),
        hnew.not_mem hs hx hx'⟩
    · obtain ⟨hroom, hsizes⟩ := overflow_sizes (a := w.arena) h.paged.size
        (by rw [hres]; exact hzero) (by rw [hcom]; exact hzero')
      have hdvdR : 2 ^ k ∣ newReserve.toNat := hres ▸ dvd_alignUp h.paged.size
      have hdvdC : 2 ^ k ∣ newCommit.toNat := hcom ▸ dvd_alignUp h.paged.size
      rw [hcom, hres] at hsizes
      rw [hcom] at hroom
      obtain ⟨hpage, hwrap, -⟩ := id hnew
      rw [h.paged.size] at hpage
      have hcursor : (newMem + orbitAlignUp bytes ORBIT_ARENA_ALIGN).toNat =
          newMem.toNat + (orbitAlignUp bytes ORBIT_ARENA_ALIGN).toNat := by
        rw [UInt64.toNat_add, Nat.mod_eq_of_lt (by omega)]
      have htop : (newMem + newCommit).toNat = newMem.toNat + newCommit.toNat := by
        rw [UInt64.toNat_add, Nat.mod_eq_of_lt (by omega)]
      have hlimit : (newMem + newReserve).toNat = newMem.toNat + newReserve.toNat := by
        rw [UInt64.toNat_add, Nat.mod_eq_of_lt hwrap]
      have hold : (w.arena.reservedEnd - w.arena.base).toNat =
          w.arena.reservedEnd.toNat - w.arena.base.toNat :=
        UInt64.toNat_sub_of_le _ _ (h.heap.base_le.trans (h.heap.cursor_le.trans h.heap.top_le))
      have hswitch := h.heap.switch newMem.toNat (newMem.toNat + newCommit.toNat)
        (newMem.toNat + newReserve.toNat)
        (fun x => OsCall.apply committed (.commit newMem newCommit) x = true)
        (Nat.le_add_right ..) (Nat.add_le_add_left hsizes _) (sixteen_dvd h.paged.page hpage) ?_
        (fun s hs x hx hx' hx'' => (apply_commit _ _ x).mpr (.inl hx''))
        (fun x hx hx' => (apply_commit _ _ x).mpr (.inr ⟨hx, hx'⟩))
      · refine h.take _ hswitch hbytes hne ?_ ?_ ?_ ?_ ?_ ?_ ?_ ?_ rfl rfl rfl rfl
        · exact ⟨h.paged.page, h.paged.size, hpage, htop.symm ▸ Nat.dvd_add hpage hdvdC,
            hlimit.symm ▸ Nat.dvd_add hpage hdvdR⟩
        · rfl
        · rfl
        · exact hcursor
        · exact Nat.add_le_add_left hroom _
        · exact htop
        · exact hlimit
        · unfold Heap.switch heapOf
          rw [List.map_cons, rangeOf, hold]
      · intro s hs
        rw [Nat.add_sub_cancel_left]
        exact hnew.apart hs

theorem ArenaInv.allocSegment (h : ArenaInv k w committed) {bytes : UInt64} (os : OsAnswer)
    (hbytes : bytes ≠ 0) {aligned : UInt64}
    (haligned : orbitAlignUp bytes ORBIT_ARENA_ALIGN = aligned) (hne : aligned ≠ 0)
    (hfresh : ∀ addr, os.reserve = some addr → Fresh w.arena addr (overflowReserve w.arena aligned)) :
    ArenaInv k (w.place bytes (allocSegment w.arena bytes aligned os))
      ((allocSegment w.arena bytes aligned os).calls.foldl OsCall.apply committed) := by
  have hle : w.arena.cursor.toNat ≤ w.arena.reservedEnd.toNat :=
    h.heap.cursor_le.trans h.heap.top_le
  unfold Arena.allocSegment
  dsimp only
  split_ifs with hfits hfast
  · rw [UInt64.le_iff_toNat_le, UInt64.toNat_sub_of_le _ _ hle] at hfits
    have hcursor : (w.arena.cursor + aligned).toNat = w.arena.cursor.toNat + aligned.toNat := by
      have hlt := w.arena.reservedEnd.toNat_lt
      rw [UInt64.toNat_add, Nat.mod_eq_of_lt (by omega)]
    rw [UInt64.le_iff_toNat_le, hcursor] at hfast
    exact h.allocBump hbytes haligned hne hcursor hfast
  · rw [UInt64.le_iff_toNat_le, UInt64.toNat_sub_of_le _ _ hle] at hfits
    have hcursor : (w.arena.cursor + aligned).toNat = w.arena.cursor.toNat + aligned.toNat := by
      have hlt := w.arena.reservedEnd.toNat_lt
      rw [UInt64.toNat_add, Nat.mod_eq_of_lt (by omega)]
    exact h.allocCommit os hbytes haligned hne hcursor (by omega) (UInt64.not_le.mp hfast)
  · exact h.allocOverflow os hbytes haligned hne hfresh

theorem place_arena (w : ArenaWorld) (a : OrbitArena) (bytes : UInt64) (r : AllocResult) :
    ({ w with arena := a } : ArenaWorld).place bytes r = w.place bytes r := by
  unfold ArenaWorld.place
  cases r.ptr <;> rfl

/-- An allocation keeps the invariant. -/
theorem ArenaInv.alloc (h : ArenaInv k w committed) (lease : Option OrbitKynxLease) (bytes : UInt64)
    (os : OsAnswer) (hfresh : ∀ addr, os.reserve = some addr →
      Fresh w.arena addr (overflowReserve w.arena (orbitAlignUp bytes ORBIT_ARENA_ALIGN))) :
    ArenaInv k (w.place bytes (orbitAllocTry lease w.arena bytes os).1)
      ((orbitAllocTry lease w.arena bytes os).1.calls.foldl OsCall.apply committed) := by
  have h' := h.refuse false
  unfold orbitAllocTry
  dsimp only
  split_ifs with hbytes hne
  · exact h
  · exact h'
  · cases chargeLease lease (orbitAlignUp bytes ORBIT_ARENA_ALIGN) with
    | none => exact h'
    | some charged =>
      have hseg := h'.allocSegment os hbytes rfl hne hfresh
      rw [place_arena] at hseg
      exact hseg

/-! ## Checkpoints and reset -/

theorem ArenaInv.checkpoint (h : ArenaInv k w committed) :
    ArenaInv k { w with marks := w.marks ++ [⟨orbitArenaCheckpoint w.arena, w.returned⟩] }
      committed := by
  have hmark := h.heap.mark
  have hoffset : (w.arena.cursor - w.arena.base).toNat = w.arena.cursor.toNat - w.arena.base.toNat :=
    UInt64.toNat_sub_of_le _ _ h.heap.base_le
  refine ⟨h.paged, ?_, h.bytes⟩
  unfold Heap.mark heapOf at hmark
  unfold heapOf
  rw [List.map_append, List.map_singleton, orbitArenaCheckpoint, hoffset]
  exact hmark

theorem ArenaInv.rewind (h : ArenaInv k w committed) {m : Mark} (hm : m ∈ w.marks)
    (hle : m.checkpoint.offset ≤ w.arena.cursor - w.arena.base) :
    ArenaInv k { w with
      arena := { w.arena with
        cursor := w.arena.base + m.checkpoint.offset, used := m.checkpoint.offset }
      live := w.live.filter (·.born < m.born) } committed := by
  have hbase : w.arena.base.toNat ≤ w.arena.cursor.toNat := h.heap.base_le
  rw [UInt64.le_iff_toNat_le, UInt64.toNat_sub_of_le _ _ hbase] at hle
  have hcursor : (w.arena.base + m.checkpoint.offset).toNat =
      w.arena.base.toNat + m.checkpoint.offset.toNat := by
    have hlt := w.arena.cursor.toNat_lt
    rw [UInt64.toNat_add, Nat.mod_eq_of_lt (by omega)]
  have hrewind := h.heap.rewind (m := ⟨m.checkpoint.offset.toNat, m.born⟩)
    (List.mem_map.mpr ⟨m, hm, rfl⟩) (by
      change w.arena.base.toNat + m.checkpoint.offset.toNat ≤ w.arena.cursor.toNat
      omega)
  refine ⟨⟨h.paged.page, h.paged.size, h.paged.base, h.paged.committed, h.paged.reserved⟩, ?_,
    fun b hb => h.bytes b (List.mem_filter.mp hb).1⟩
  unfold Heap.rewind heapOf at hrewind
  unfold heapOf
  dsimp only at hrewind ⊢
  rw [hcursor]
  rw [List.filter_map] at hrewind
  exact hrewind

/-- The releases of a reset leave the other addresses. -/
theorem foldl_release (os : List OrbitArenaOverflow) (x : Nat) :
    (os.map fun o => OsCall.release o.ptr o.size).foldl OsCall.apply committed x = true ↔
      committed x = true ∧ ∀ o ∈ os, ¬ (o.ptr.toNat ≤ x ∧ x < o.ptr.toNat + o.size.toNat) := by
  induction os generalizing committed with
  | nil => exact (and_iff_left nofun).symm
  | cons o os ih =>
    rw [List.map_cons, List.foldl_cons, ih, apply_release, and_assoc, List.forall_mem_cons]

theorem resetKeep_spec {a : OrbitArena} (hk : a.pageSize.toNat = 2 ^ k)
    (hbase : 2 ^ k ∣ a.base.toNat) (hreserved : 2 ^ k ∣ a.reservedEnd.toNat)
    (hle : a.base.toNat ≤ a.reservedEnd.toNat) :
    2 ^ k ∣ (resetKeep a).toNat ∧ a.base.toNat + (resetKeep a).toNat ≤ a.reservedEnd.toNat := by
  have htotal := UInt64.toNat_sub_of_le a.reservedEnd a.base hle
  unfold resetKeep
  dsimp only
  generalize (if (if a.cursor - a.base > ORBIT_ARENA_HOT_RETENTION_LIMIT then a.cursor - a.base
    else ORBIT_ARENA_HOT_RETENTION_LIMIT) > ORBIT_ARENA_HOT_RETENTION_CEILING then
    ORBIT_ARENA_HOT_RETENTION_CEILING
    else if a.cursor - a.base > ORBIT_ARENA_HOT_RETENTION_LIMIT then a.cursor - a.base
      else ORBIT_ARENA_HOT_RETENTION_LIMIT) = keep
  split_ifs with hkeep
  · rw [htotal]
    exact ⟨Nat.dvd_sub hreserved hbase, by omega⟩
  · refine ⟨dvd_alignUp hk, ?_⟩
    rw [gt_iff_lt, UInt64.lt_iff_toNat_lt, htotal] at hkeep
    omega

theorem ArenaInv.reset (h : ArenaInv k w committed) :
    ArenaInv k { w with arena := (orbitArenaReset w.arena).1, live := [] }
      ((orbitArenaReset w.arena).2.foldl OsCall.apply committed) := by
  have hbase : w.arena.base.toNat ≤ w.arena.committedEnd.toNat :=
    h.heap.base_le.trans h.heap.cursor_le
  have htop : w.arena.committedEnd.toNat ≤ w.arena.reservedEnd.toNat := h.heap.top_le
  obtain ⟨hdvd, hroom⟩ := resetKeep_spec h.paged.size h.paged.base h.paged.reserved
    (hbase.trans htop)
  unfold orbitArenaReset
  generalize resetKeep w.arena = keep at hdvd hroom ⊢
  have hkeep : (w.arena.base + keep).toNat = w.arena.base.toNat + keep.toNat := by
    have hlt := w.arena.reservedEnd.toNat_lt
    rw [UInt64.toNat_add, Nat.mod_eq_of_lt (by omega)]
  have hout : ∀ x, w.arena.base.toNat ≤ x → x < w.arena.committedEnd.toNat →
      ∀ o ∈ w.arena.overflowList, ¬ (o.ptr.toNat ≤ x ∧ x < o.ptr.toNat + o.size.toNat) := by
    intro x hx hx' o ho
    have hsegs := h.heap.segments
    unfold Heap.segments at hsegs
    rw [List.pairwise_cons] at hsegs
    rcases hsegs.1 (rangeOf o) (List.mem_map.mpr ⟨o, ho, rfl⟩) with hap | hap
    · change w.arena.base.toNat + (w.arena.reservedEnd.toNat - w.arena.base.toNat) ≤ o.ptr.toNat
        at hap
      omega
    · change o.ptr.toNat + o.size.toNat ≤ w.arena.base.toNat at hap
      omega
  dsimp only
  by_cases hcut : w.arena.committedEnd > w.arena.base + keep
  · rw [if_pos hcut, if_pos hcut]
    rw [gt_iff_lt, UInt64.lt_iff_toNat_lt, hkeep] at hcut
    refine ⟨⟨h.paged.page, h.paged.size, h.paged.base, ?_, h.paged.reserved⟩, ?_, nofun⟩
    · dsimp only
      rw [hkeep]
      exact Nat.dvd_add h.paged.base hdvd
    · have hreset := h.heap.reset (w.arena.base.toNat + keep.toNat) (fun x =>
        ((w.arena.overflowList.map fun o : OrbitArenaOverflow => OsCall.release o.ptr o.size) ++
          [OsCall.decommit (w.arena.base + keep) (w.arena.committedEnd - (w.arena.base + keep))]).foldl
            OsCall.apply committed x = true) (Nat.le_add_right ..) hroom ?_
      · unfold Heap.reset heapOf at hreset
        unfold heapOf
        dsimp only at hreset ⊢
        rw [hkeep]
        exact hreset
      · intro x hx hx'
        change w.arena.base.toNat ≤ x at hx
        rw [List.foldl_append]
        unfold List.foldl OsCall.apply
        rw [List.foldl_nil, Bool.and_eq_true, Bool.not_eq_true', decide_eq_false_iff_not, hkeep]
        exact ⟨(foldl_release _ x).mpr
          ⟨h.heap.backed x hx (by change x < w.arena.committedEnd.toNat; omega),
            hout x hx (by omega)⟩, by omega⟩
  · rw [if_neg hcut, if_neg hcut, List.append_nil]
    refine ⟨⟨h.paged.page, h.paged.size, h.paged.base, h.paged.committed, h.paged.reserved⟩, ?_,
      nofun⟩
    exact h.heap.reset _ _ hbase htop fun x hx hx' =>
      (foldl_release _ x).mpr ⟨h.heap.backed x hx hx', hout x hx hx'⟩

/-! ## Runs -/

/-- The reservation that an operation is answered with, if any, is fresh. -/
def FreshAnswer (w : ArenaWorld) : ArenaOp → Prop
  | .alloc _ bytes os => ∀ addr, os.reserve = some addr →
      Fresh w.arena addr (overflowReserve w.arena (orbitAlignUp bytes ORBIT_ARENA_ALIGN))
  | _ => True

/-- The reservations of a run are fresh. -/
def FreshAnswers : ArenaWorld → List ArenaOp → Prop
  | _, [] => True
  | w, op :: ops => FreshAnswer w op ∧ FreshAnswers (arenaStep w op).1 ops

/-- An operation keeps the invariant. -/
theorem ArenaInv.step (h : ArenaInv k w committed) {op : ArenaOp} (hfresh : FreshAnswer w op) :
    ArenaInv k (arenaStep w op).1 ((arenaStep w op).2.foldl OsCall.apply committed) := by
  cases op with
  | alloc lease bytes os => exact h.alloc lease bytes os hfresh
  | checkpoint => exact h.checkpoint
  | rewind i =>
    simp only [arenaStep]
    cases hm : w.marks[i]? with
    | none => exact h
    | some m =>
      dsimp only
      unfold orbitArenaRewind
      by_cases hgen : m.checkpoint.generation ≠ w.arena.generation
      · rw [if_pos hgen]
        exact h
      · rw [if_neg hgen]
        by_cases hoffset : m.checkpoint.offset > w.arena.cursor - w.arena.base
        · rw [if_pos hoffset]
          exact h
        · rw [if_neg hoffset]
          exact h.rewind (List.mem_of_getElem? hm) (UInt64.not_lt.mp hoffset)
  | reset => exact h.reset

theorem ArenaInv.run (h : ArenaInv k w committed) {ops : List ArenaOp} (hfresh : FreshAnswers w ops) :
    ArenaInv k (arenaRun w committed ops).1 (arenaRun w committed ops).2 := by
  induction ops generalizing w committed with
  | nil => exact h
  | cons op ops ih => exact ih (h.step hfresh.1) hfresh.2

/-- What a program relies on: the pointers are in order, and the live blocks are aligned, have the
bytes asked for, lie in committed memory and do not overlap. -/
structure ArenaSound (w : ArenaWorld) (committed : Nat → Bool) : Prop where
  base_le : w.arena.base ≤ w.arena.cursor
  cursor_le : w.arena.cursor ≤ w.arena.committedEnd
  committed_le : w.arena.committedEnd ≤ w.arena.reservedEnd
  aligned : ∀ b ∈ w.live, 16 ∣ b.addr.toNat
  bytes : ∀ b ∈ w.live, b.bytes ≤ b.size
  backed : ∀ b ∈ w.live, ∀ x, b.addr.toNat ≤ x → x < b.addr.toNat + b.size.toNat →
    committed x = true
  apart : w.live.Pairwise fun b c => b.addr.toNat + b.size.toNat ≤ c.addr.toNat ∨
    c.addr.toNat + c.size.toNat ≤ b.addr.toNat

theorem ArenaInv.sound (h : ArenaInv k w committed) : ArenaSound w committed where
  base_le := h.heap.base_le
  cursor_le := h.heap.cursor_le
  committed_le := h.heap.top_le
  aligned := fun _ hb => (h.heap.block _ (List.mem_map_of_mem hb)).1
  bytes := h.bytes
  backed := fun _ hb => h.heap.held _ (List.mem_map_of_mem hb)
  apart := List.pairwise_map.mp h.heap.apart

/-- A new arena. -/
def ArenaWorld.start (a : OrbitArena) : ArenaWorld :=
  { arena := a, marks := [], live := [], returned := 0 }

theorem create_inv {pageSize maxRule initialCapacity : UInt64} {os : OsAnswer} {a : OrbitArena}
    {calls : List OsCall} (hk : 4 ≤ k) (hpage : pageSize.toNat = 2 ^ k)
    (hos : ∀ addr, os.reserve = some addr → pageSize.toNat ∣ addr.toNat ∧
      addr.toNat + (createReserve pageSize initialCapacity).toNat < 2 ^ 64)
    (hcreate : orbitArenaCreate pageSize maxRule initialCapacity os = (some a, calls)) :
    ArenaInv k (ArenaWorld.start a) (calls.foldl OsCall.apply committed) := by
  unfold orbitArenaCreate at hcreate
  unfold createReserve at hos
  dsimp only at hcreate hos
  generalize hreserve : orbitAlignUp (if initialCapacity > ORBIT_ARENA_DEFAULT_RESERVE then
    initialCapacity else ORBIT_ARENA_DEFAULT_RESERVE) pageSize = reserve at hcreate hos
  generalize hcommit : orbitAlignUp (if initialCapacity > 0 then initialCapacity
    else ORBIT_ARENA_DEFAULT_COMMIT) pageSize = commit at hcreate hos
  have hdvdR : 2 ^ k ∣ reserve.toNat := hreserve ▸ dvd_alignUp hpage
  have hdvdC : 2 ^ k ∣ commit.toNat := hcommit ▸ dvd_alignUp hpage
  generalize hsize : (if commit > reserve then commit else reserve) = size at hcreate hos
  have hdvd : 2 ^ k ∣ size.toNat := by
    rw [← hsize]
    split_ifs
    · exact hdvdC
    · exact hdvdR
  have hle : commit.toNat ≤ size.toNat := by
    rw [← hsize]
    split_ifs with hgt
    · exact Nat.le_refl _
    · exact UInt64.not_lt.mp hgt
  cases hres : os.reserve with
  | none =>
    rw [hres] at hcreate
    dsimp only at hcreate
    split_ifs at hcreate <;> cases hcreate
  | some reserved =>
    obtain ⟨hbase, hwrap⟩ := hos reserved hres
    rw [hpage] at hbase
    rw [hres] at hcreate
    dsimp only at hcreate
    split_ifs at hcreate
    · cases hcreate
    · cases hcreate
    · cases hcreate
    · cases hcreate
    · obtain ⟨ha, rfl⟩ := Prod.mk.inj hcreate
      rw [← Option.some.inj ha]
      have htop : (reserved + commit).toNat = reserved.toNat + commit.toNat := by
        rw [UInt64.toNat_add, Nat.mod_eq_of_lt (by omega)]
      have hlimit : (reserved + size).toNat = reserved.toNat + size.toNat := by
        rw [UInt64.toNat_add, Nat.mod_eq_of_lt hwrap]
      refine ⟨⟨hk, hpage, hbase, htop.symm ▸ Nat.dvd_add hbase hdvdC,
        hlimit.symm ▸ Nat.dvd_add hbase hdvd⟩, ?_, nofun⟩
      refine ⟨Nat.le_refl _, ?_, ?_, sixteen_dvd hk hbase, sixteen_dvd hk hbase,
        List.pairwise_singleton .., ?_, nofun, nofun, nofun, .nil, nofun, nofun, nofun⟩
      · change reserved.toNat ≤ (reserved + commit).toNat
        omega
      · change (reserved + commit).toNat ≤ (reserved + size).toNat
        omega
      · intro x hx hx'
        change x < (reserved + commit).toNat at hx'
        exact (apply_commit _ _ x).mpr (.inr ⟨hx, htop ▸ hx'⟩)

/-- **The arena is sound in every run**, as long as the operating system answers with fresh,
page-aligned reservations. -/
theorem arena_sound {pageSize maxRule initialCapacity : UInt64} {os : OsAnswer} {a : OrbitArena}
    {calls : List OsCall} {k : Nat} (hk : 4 ≤ k) (hpage : pageSize.toNat = 2 ^ k)
    (hos : ∀ addr, os.reserve = some addr → pageSize.toNat ∣ addr.toNat ∧
      addr.toNat + (createReserve pageSize initialCapacity).toNat < 2 ^ 64)
    (hcreate : orbitArenaCreate pageSize maxRule initialCapacity os = (some a, calls))
    (ops : List ArenaOp) (hfresh : FreshAnswers (ArenaWorld.start a) ops) (committed : Nat → Bool) :
    ArenaSound (arenaRun (ArenaWorld.start a) (calls.foldl OsCall.apply committed) ops).1
      (arenaRun (ArenaWorld.start a) (calls.foldl OsCall.apply committed) ops).2 :=
  ((create_inv hk hpage hos hcreate).run hfresh).sound

/-- An arena of one page. -/
def tourArena : OrbitArena where
  base := 0x10000000
  cursor := 0x10000000
  committedEnd := 0x10001000
  reservedEnd := 0x14000000
  pageSize := 4096
  requestedBytes := 0
  alignedBytes := 0
  peakUsed := 0
  committedBytes := 4096
  reservedBytes := 0x4000000
  maxRule := 0
  ceilingHit := false
  generation := 1
  allocCount := 0
  overflowList := []
  capacity := 0x4000000
  used := 0

/-- A block, a mark, growth, an overflow, the way back to the mark, and a reset. -/
def tourRun : List ArenaOp :=
  [.alloc none 100 ⟨none, true, true⟩, .checkpoint, .alloc none 70000 ⟨none, true, true⟩,
    .alloc none 67108864 ⟨some 0x20000000, true, true⟩, .rewind 0,
    .alloc none 1 ⟨none, true, true⟩, .reset, .alloc none 32 ⟨none, true, true⟩]

theorem arena_sound_tour :
    ArenaSound (arenaRun (ArenaWorld.start tourArena)
        ([OsCall.commit 0x10000000 4096].foldl OsCall.apply fun _ => false) tourRun).1
      (arenaRun (ArenaWorld.start tourArena)
        ([OsCall.commit 0x10000000 4096].foldl OsCall.apply fun _ => false) tourRun).2 := by
  have hcreate : orbitArenaCreate 4096 0 4096 ⟨some 0x10000000, true, true⟩ =
      (some tourArena, [.commit 0x10000000 4096]) := by decide
  refine arena_sound (k := 12) (by decide) rfl ?_ hcreate tourRun
    ⟨nofun, trivial, nofun, ?_, trivial, nofun, trivial, nofun, trivial⟩ _
  · intro addr haddr
    rw [← Option.some.inj haddr]
    decide
  · intro addr haddr
    rw [← Option.some.inj haddr]
    refine ⟨by decide, by decide, .inr (by decide), ?_⟩
    intro o ho
    cases ho

end Runtime.Arena
