import Mathlib.Algebra.GroupWithZero.Nat
import Mathlib.Data.List.Basic
import Mathlib.Order.Nat

/-!
# Bump allocation in segments

A heap hands out blocks from a cursor that moves through a segment of memory. A full segment is
retired and another one takes its place; a mark remembers how far the cursor was, and going back to
it releases the blocks handed out since. Blocks that are live do not overlap (`Heap.Inv.apart`),
whatever the order of the operations: a block older than a mark is in a retired segment or below the
mark.
-/

namespace Lib.Region

/-- A range of addresses: where it begins, and how many there are. -/
abbrev Range := Nat × Nat

def Apart (r s : Range) : Prop := r.1 + r.2 ≤ s.1 ∨ s.1 + s.2 ≤ r.1

def Within (r s : Range) : Prop := s.1 ≤ r.1 ∧ r.1 + r.2 ≤ s.1 + s.2

/-- Ranges within ranges that are apart. -/
theorem Apart.within {r s r' s' : Range} (h : Apart r s) (hr : Within r' r) (hs : Within s' s) :
    Apart r' s' := by
  obtain ⟨hr1, hr2⟩ := hr
  obtain ⟨hs1, hs2⟩ := hs
  rcases h with h | h
  · exact .inl (by omega)
  · exact .inr (by omega)

structure Block where
  range : Range
  /-- The count of blocks handed out before it. -/
  born : Nat

structure Mark where
  offset : Nat
  born : Nat

/-- The segment in use lies from `base` to `limit`, and up to `top` its addresses are backed. -/
structure Heap where
  base : Nat
  cursor : Nat
  top : Nat
  limit : Nat
  retired : List Range
  live : List Block
  marks : List Mark
  count : Nat
  backed : Nat → Prop

namespace Heap

def segments (h : Heap) : List Range := (h.base, h.limit - h.base) :: h.retired

/-- A block of the segment in use. -/
def Current (h : Heap) (b : Block) : Prop := Within b.range (h.base, h.cursor - h.base)

structure Inv (align : Nat) (h : Heap) : Prop where
  base_le : h.base ≤ h.cursor
  cursor_le : h.cursor ≤ h.top
  top_le : h.top ≤ h.limit
  base_aligned : align ∣ h.base
  cursor_aligned : align ∣ h.cursor
  segments : h.segments.Pairwise Apart
  backed : ∀ x, h.base ≤ x → x < h.top → h.backed x
  placed : ∀ b ∈ h.live, h.Current b ∨ ∃ s ∈ h.retired, Within b.range s
  block : ∀ b ∈ h.live, align ∣ b.range.1 ∧ 0 < b.range.2
  held : ∀ b ∈ h.live, ∀ x, b.range.1 ≤ x → x < b.range.1 + b.range.2 → h.backed x
  apart : h.live.Pairwise fun b c => Apart b.range c.range
  born : ∀ b ∈ h.live, b.born < h.count
  marked : ∀ m ∈ h.marks, m.born ≤ h.count ∧ align ∣ m.offset
  below : ∀ m ∈ h.marks, ∀ b ∈ h.live, b.born < m.born → h.Current b →
    b.range.1 + b.range.2 ≤ h.base + m.offset

variable {align : Nat} {h : Heap}

/-! ## The operations -/

/-- A block is handed out. -/
def take (h : Heap) (size : Nat) : Heap :=
  { h with
    cursor := h.cursor + size
    live := ⟨(h.cursor, size), h.count⟩ :: h.live
    count := h.count + 1 }

/-- More addresses are backed. -/
def grow (h : Heap) (top : Nat) (backed : Nat → Prop) : Heap := { h with top, backed }

/-- The segment is retired for another one. -/
def switch (h : Heap) (base top limit : Nat) (backed : Nat → Prop) : Heap :=
  { h with
    base, cursor := base, top, limit, backed
    retired := (h.base, h.limit - h.base) :: h.retired }

def mark (h : Heap) : Heap := { h with marks := h.marks ++ [⟨h.cursor - h.base, h.count⟩] }

/-- The blocks handed out since the mark are released. -/
def rewind (h : Heap) (m : Mark) : Heap :=
  { h with cursor := h.base + m.offset, live := h.live.filter (·.born < m.born) }

/-- All blocks and the retired segments are released. -/
def reset (h : Heap) (top : Nat) (backed : Nat → Prop) : Heap :=
  { h with cursor := h.base, top, backed, retired := [], live := [] }

/-! ## They keep the invariant -/

/-- A live block lies in a segment. -/
theorem Inv.mem_segment (hinv : h.Inv align) {b : Block} (hb : b ∈ h.live) :
    ∃ s ∈ h.segments, Within b.range s := by
  have hcursor := hinv.cursor_le
  have htop := hinv.top_le
  rcases hinv.placed b hb with hcur | ⟨s, hs, hin⟩
  · refine ⟨_, List.mem_cons_self, hcur.1, hcur.2.trans ?_⟩
    dsimp only
    omega
  · exact ⟨s, List.mem_cons_of_mem _ hs, hin⟩

/-- A block of a retired segment is not in the segment in use. -/
theorem Inv.not_within (hinv : h.Inv align) {b : Block} (hb : b ∈ h.live) {s : Range}
    (hs : s ∈ h.retired) (hin : Within b.range s) {size : Nat} (hsize : h.base + size ≤ h.limit) :
    ¬ Within b.range (h.base, size) := by
  intro hcur
  have hsegs := hinv.segments
  unfold Heap.segments at hsegs
  rw [List.pairwise_cons] at hsegs
  have hpos := (hinv.block b hb).2
  obtain ⟨h1, h2⟩ := hcur
  obtain ⟨h3, h4⟩ := hin
  rcases hsegs.1 s hs with h | h
  · dsimp only at h h1 h2
    omega
  · dsimp only at h h1 h2
    omega

theorem Inv.take (hinv : h.Inv align) {size : Nat} (hsize : 0 < size) (halign : align ∣ size)
    (htop : h.cursor + size ≤ h.top) : (h.take size).Inv align := by
  have hbase := hinv.base_le
  have hlimit := hinv.top_le
  have hkeep : ∀ b, h.Current b → (h.take size).Current b := by
    intro b hcur
    refine ⟨hcur.1, hcur.2.trans ?_⟩
    unfold Heap.take
    dsimp only
    omega
  have hapart : ∀ b ∈ h.live, Apart (h.cursor, size) b.range := by
    intro b hb
    rcases hinv.placed b hb with hcur | ⟨s, hs, hin⟩
    · right
      have h2 := hcur.2
      dsimp only at h2 ⊢
      omega
    · have hsegs := hinv.segments
      unfold Heap.segments at hsegs
      rw [List.pairwise_cons] at hsegs
      refine (hsegs.1 s hs).within ⟨hbase, ?_⟩ hin
      dsimp only
      omega
  refine ⟨hbase.trans (Nat.le_add_right ..), htop, hlimit, hinv.base_aligned,
    Nat.dvd_add hinv.cursor_aligned halign, hinv.segments, hinv.backed, ?_, ?_, ?_, ?_, ?_, ?_, ?_⟩
  · rintro b (_ | ⟨_, hb⟩)
    · left
      refine ⟨hbase, ?_⟩
      unfold Heap.take
      dsimp only
      omega
    · exact (hinv.placed b hb).imp (hkeep b) id
  · rintro b (_ | ⟨_, hb⟩)
    · exact ⟨hinv.cursor_aligned, hsize⟩
    · exact hinv.block b hb
  · rintro b (_ | ⟨_, hb⟩)
    · exact fun x hx hx' => hinv.backed x (hbase.trans hx) (Nat.lt_of_lt_of_le hx' htop)
    · exact hinv.held b hb
  · exact List.pairwise_cons.mpr ⟨hapart, hinv.apart⟩
  · rintro b (_ | ⟨_, hb⟩)
    · exact Nat.lt_succ_self _
    · exact Nat.lt_succ_of_lt (hinv.born b hb)
  · exact fun m hm => ⟨Nat.le_succ_of_le (hinv.marked m hm).1, (hinv.marked m hm).2⟩
  · rintro m hm b (_ | ⟨_, hb⟩) hborn hcur
    · exact absurd hborn (Nat.not_lt_of_le (hinv.marked m hm).1)
    · rcases hinv.placed b hb with hcur' | ⟨s, hs, hin⟩
      · exact hinv.below m hm b hb hborn hcur'
      · refine absurd hcur (hinv.not_within hb hs hin ?_)
        unfold Heap.take
        dsimp only
        omega

theorem Inv.grow (hinv : h.Inv align) (top : Nat) (backed : Nat → Prop) (htop : h.top ≤ top)
    (hlimit : top ≤ h.limit) (hkeep : ∀ x, h.backed x → backed x)
    (hback : ∀ x, h.base ≤ x → x < top → backed x) : (h.grow top backed).Inv align :=
  ⟨hinv.base_le, hinv.cursor_le.trans htop, hlimit, hinv.base_aligned, hinv.cursor_aligned,
    hinv.segments, hback, hinv.placed, hinv.block,
    fun b hb x hx hx' => hkeep x (hinv.held b hb x hx hx'), hinv.apart, hinv.born, hinv.marked,
    hinv.below⟩

/-- What is backed in the segments is all that matters. -/
theorem Inv.recount (hinv : h.Inv align) {backed : Nat → Prop}
    (hkeep : ∀ s ∈ h.segments, ∀ x, s.1 ≤ x → x < s.1 + s.2 → h.backed x → backed x) :
    ({ h with backed } : Heap).Inv align := by
  have htop := hinv.top_le
  have hcursor := hinv.cursor_le
  have hbase := hinv.base_le
  refine ⟨hbase, hcursor, htop, hinv.base_aligned, hinv.cursor_aligned, hinv.segments, ?_,
    hinv.placed, hinv.block, ?_, hinv.apart, hinv.born, hinv.marked, hinv.below⟩
  · intro x hx hx'
    dsimp only at hx hx' ⊢
    refine hkeep _ List.mem_cons_self x hx ?_ (hinv.backed x hx hx')
    dsimp only
    omega
  · intro b hb x hx hx'
    obtain ⟨s, hs, hin⟩ := hinv.mem_segment hb
    exact hkeep s hs x (hin.1.trans hx) (Nat.lt_of_lt_of_le hx' hin.2) (hinv.held b hb x hx hx')

theorem Inv.switch (hinv : h.Inv align) (base top limit : Nat) (backed : Nat → Prop)
    (htop : base ≤ top) (hlimit : top ≤ limit) (halign : align ∣ base)
    (hfresh : ∀ s ∈ h.segments, Apart (base, limit - base) s)
    (hkeep : ∀ s ∈ h.segments, ∀ x, s.1 ≤ x → x < s.1 + s.2 → h.backed x → backed x)
    (hback : ∀ x, base ≤ x → x < top → backed x) : (h.switch base top limit backed).Inv align := by
  have hnot : ∀ b ∈ h.live, ¬ (h.switch base top limit backed).Current b := by
    intro b hb hcur
    have hsize := (hinv.block b hb).2
    obtain ⟨h1, h2⟩ := hcur
    unfold Heap.switch at h1 h2
    dsimp only at h1 h2
    omega
  refine ⟨Nat.le_refl _, htop, hlimit, halign, halign, List.pairwise_cons.mpr ⟨hfresh, hinv.segments⟩,
    hback, fun b hb => .inr (hinv.mem_segment hb), hinv.block, ?_, hinv.apart, hinv.born, hinv.marked,
    fun m hm b hb _ hcur => absurd hcur (hnot b hb)⟩
  exact (hinv.recount hkeep).held

theorem Inv.mark (hinv : h.Inv align) : h.mark.Inv align := by
  refine ⟨hinv.base_le, hinv.cursor_le, hinv.top_le, hinv.base_aligned, hinv.cursor_aligned,
    hinv.segments, hinv.backed, hinv.placed, hinv.block, hinv.held, hinv.apart, hinv.born, ?_, ?_⟩
  · intro m hm
    rcases List.mem_append.mp hm with hm | hm
    · exact hinv.marked m hm
    · rw [List.mem_singleton.mp hm]
      exact ⟨Nat.le_refl _, Nat.dvd_sub hinv.cursor_aligned hinv.base_aligned⟩
  · intro m hm b hb hborn hcur
    rcases List.mem_append.mp hm with hm | hm
    · exact hinv.below m hm b hb hborn hcur
    · rw [List.mem_singleton.mp hm]
      exact hcur.2

theorem Inv.rewind (hinv : h.Inv align) {m : Mark} (hm : m ∈ h.marks)
    (hle : h.base + m.offset ≤ h.cursor) : (h.rewind m).Inv align := by
  have hshrink : ∀ b, (h.rewind m).Current b → h.Current b := by
    intro b hcur
    refine ⟨hcur.1, hcur.2.trans ?_⟩
    unfold Heap.rewind
    dsimp only
    omega
  have hmem : ∀ b ∈ (h.rewind m).live, b ∈ h.live ∧ b.born < m.born := by
    intro b hb
    unfold Heap.rewind at hb
    rw [List.mem_filter, decide_eq_true_eq] at hb
    exact hb
  refine ⟨Nat.le_add_right .., hle.trans hinv.cursor_le, hinv.top_le, hinv.base_aligned,
    Nat.dvd_add hinv.base_aligned (hinv.marked m hm).2, hinv.segments, hinv.backed, ?_,
    fun b hb => hinv.block b (hmem b hb).1, fun b hb => hinv.held b (hmem b hb).1,
    hinv.apart.filter _, fun b hb => hinv.born b (hmem b hb).1, hinv.marked,
    fun m' hm' b hb hborn hcur => hinv.below m' hm' b (hmem b hb).1 hborn (hshrink b hcur)⟩
  intro b hb
  obtain ⟨hlive, hborn⟩ := hmem b hb
  rcases hinv.placed b hlive with hcur | hret
  · left
    have hend := hinv.below m hm b hlive hborn hcur
    refine ⟨hcur.1, ?_⟩
    unfold Heap.rewind
    dsimp only
    omega
  · exact .inr hret

theorem Inv.reset (hinv : h.Inv align) (top : Nat) (backed : Nat → Prop) (hbase : h.base ≤ top)
    (htop : top ≤ h.limit) (hback : ∀ x, h.base ≤ x → x < top → backed x) :
    (h.reset top backed).Inv align := by
  refine ⟨Nat.le_refl _, hbase, htop, hinv.base_aligned, hinv.base_aligned, ?_, hback, nofun, nofun,
    nofun, .nil, nofun, hinv.marked, fun _ _ b hb => nomatch hb⟩
  exact List.pairwise_singleton ..

end Heap

/-! ## How much of a range is backed -/

section
variable {f g : Nat → Bool} {s : Range} {l : List Range}

/-- The addresses of a range that are backed. -/
def backedIn (f : Nat → Bool) (s : Range) : Nat := (List.range' s.1 s.2).countP f

def backedTotal (f : Nat → Bool) (l : List Range) : Nat := (l.map (backedIn f)).sum

theorem backedTotal_cons (f : Nat → Bool) (s : Range) (l : List Range) :
    backedTotal f (s :: l) = backedIn f s + backedTotal f l := by
  rw [backedTotal, List.map_cons, List.sum_cons, backedTotal]

theorem backedIn_congr (h : ∀ x, s.1 ≤ x → x < s.1 + s.2 → f x = g x) :
    backedIn f s = backedIn g s := by
  apply List.countP_congr
  intro x hx
  obtain ⟨hx, hx'⟩ := List.mem_range'_1.mp hx
  rw [h x hx hx']

theorem backedTotal_congr (h : ∀ s ∈ l, ∀ x, s.1 ≤ x → x < s.1 + s.2 → f x = g x) :
    backedTotal f l = backedTotal g l := by
  rw [backedTotal, List.map_congr_left fun s hs => backedIn_congr (h s hs), backedTotal]

/-- A range that is backed up to a top. -/
theorem backedIn_below (top : Nat) (hbase : s.1 ≤ top) (htop : top ≤ s.1 + s.2)
    (h : ∀ x, s.1 ≤ x → x < s.1 + s.2 → (f x = true ↔ x < top)) : backedIn f s = top - s.1 := by
  have hsplit : List.range' s.1 s.2 =
      List.range' s.1 (top - s.1) ++ List.range' top (s.1 + s.2 - top) := by
    have happend : List.range' s.1 (top - s.1) ++ List.range' (s.1 + 1 * (top - s.1))
        (s.1 + s.2 - top) = List.range' s.1 (top - s.1 + (s.1 + s.2 - top)) := List.range'_append
    rw [Nat.one_mul, show s.1 + (top - s.1) = top by omega,
      show top - s.1 + (s.1 + s.2 - top) = s.2 by omega] at happend
    exact happend.symm
  have hbelow : (List.range' s.1 (top - s.1)).countP f = top - s.1 := by
    rw [List.countP_eq_length.mpr, List.length_range']
    intro x hx
    obtain ⟨hx, hx'⟩ := List.mem_range'_1.mp hx
    exact (h x hx (by omega)).mpr (by omega)
  have habove : (List.range' top (s.1 + s.2 - top)).countP f = 0 := by
    rw [List.countP_eq_zero]
    intro x hx
    obtain ⟨hx, hx'⟩ := List.mem_range'_1.mp hx
    rw [h x (by omega) (by omega)]
    omega
  rw [backedIn, hsplit, List.countP_append, hbelow, habove, Nat.add_zero]

end

end Lib.Region
