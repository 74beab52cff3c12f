import Orbit.Stdlib.Bytes
import Orbit.Stdlib.Proof.Strings

/-!
# Frames come out as they went in

A buffer that is only written and read by frames is a queue (`frames_in_order`): behind the cursor
stand the frames that were not read yet (`Holds`). On any data, what a read does is said by
`readFrame_none` and `readFrame_some`; the length of a frame is not checked before it is added to the
cursor, and the cursor stays in the data on the runs where no such sum wraps (`cursor_bounded_iff`).
-/

namespace Stdlib.Bytes

open Lib.Decimal (isDigit digitsValue)
open Runtime.Json (Text)
open Stdlib.Strings

/-! ## The length field -/

theorem parseDigits_digits {d : Text} (h : ∀ c ∈ d, isDigit c = true) (n : Int) :
    parseDigits (toInt64 n) d = toInt64 (d.foldl (fun n c => n * 10 + (c.toNat - 48 : Nat)) n) := by
  induction d generalizing n with
  | nil => rfl
  | cons c d ih =>
    have hrange := (isDigit_iff c).mp (h c List.mem_cons_self)
    rw [parseDigits, if_neg hrange, toInt64_step,
      show ((c.toNat : Int) - 48) = (c.toNat - 48 : Nat) by omega,
      ih (fun c hc => h c (List.mem_cons_of_mem _ hc)), List.foldl_cons]

theorem parseDigits_other {d : Text} (h : ¬ ∀ c ∈ d, isDigit c = true) (n : Int) :
    parseDigits n d = -1 := by
  induction d generalizing n with
  | nil => exact absurd (fun c hc => absurd hc List.not_mem_nil) h
  | cons c d ih =>
    rw [parseDigits]
    split_ifs with hrange
    · rfl
    · refine ih (fun hd => h fun x hx => ?_) _
      rcases List.mem_cons.mp hx with rfl | hx
      · exact (isDigit_iff x).mpr hrange
      · exact hd x hx

/-- A length field of digits is read as its number in 64 bits. -/
theorem parseFrameLen_number {d : Text} (hne : d ≠ []) (hall : ∀ c ∈ d, isDigit c = true) :
    parseFrameLen d = toInt64 (digitsValue d) := by
  rw [parseFrameLen, if_neg hne]
  exact parseDigits_digits hall 0

theorem parseFrameLen_cases (d : Text) :
    parseFrameLen d = toInt64 (digitsValue d) ∨ parseFrameLen d = -1 := by
  by_cases hd : d = []
  · exact .inr (by rw [parseFrameLen, if_pos hd])
  · by_cases hall : ∀ c ∈ d, isDigit c = true
    · exact .inl (parseFrameLen_number hd hall)
    · exact .inr (by rw [parseFrameLen, if_neg hd, parseDigits_other hall])

/-! ## Reading a frame -/

theorem colonFrom_eq (u r : Text) {fuel : Nat} (hfuel : r.length ≤ fuel) :
    colonFrom (u ++ r) fuel u.length = (u.length + (r.takeWhile (· ≠ ':')).length : Nat) := by
  induction r generalizing u fuel with
  | nil =>
    cases fuel with
    | zero => rfl
    | succ fuel => rw [colonFrom, if_neg (by simp)]; rfl
  | cons c r ih =>
    obtain ⟨fuel, rfl⟩ : ∃ f, fuel = f + 1 := ⟨fuel - 1, by rw [List.length_cons] at hfuel; omega⟩
    have hcolon : (c.toNat : Int) = 58 ↔ c = ':' := toNat_eq_iff c ':'
    rw [colonFrom, if_pos (by simp), orbitStringAt_append]
    by_cases hc : c = ':'
    · rw [if_pos (hcolon.mpr hc), List.takeWhile_cons_of_neg (by simpa using hc)]
      rfl
    · have hlen : r.length ≤ fuel := by
        rw [List.length_cons] at hfuel
        omega
      have hnext := ih (u ++ [c]) hlen
      rw [List.append_assoc, List.singleton_append, List.length_append, List.length_singleton] at hnext
      rw [if_neg (mt hcolon.mp hc), List.takeWhile_cons_of_pos (by simpa using hc), List.length_cons,
        show (u.length : Int) + 1 = (u.length + 1 : Nat) from rfl, hnext, Nat.add_assoc,
        Nat.add_comm 1]

/-- The cursor is in the data. -/
def Buffer.Bounded (buf : Buffer) : Prop := 0 ≤ buf.pos ∧ buf.pos ≤ buf.data.length

/-- Before the cursor and behind it. -/
theorem Buffer.Bounded.split {buf : Buffer} (h : buf.Bounded) :
    ∃ u r, buf.data = u ++ r ∧ buf.pos = u.length := by
  obtain ⟨h0, h1⟩ := h
  refine ⟨buf.data.take buf.pos.toNat, buf.data.drop buf.pos.toNat,
    (List.take_append_drop _ _).symm, ?_⟩
  rw [List.length_take_of_le (by omega)]
  omega

theorem takeWhile_field {d : Text} (hd : ':' ∉ d) (r : Text) :
    (d ++ r).takeWhile (· ≠ ':') = d ++ r.takeWhile (· ≠ ':') :=
  List.takeWhile_append_of_pos fun _ hc => decide_eq_true (ne_of_mem_of_not_mem hc hd)

theorem readFrame_none {buf : Buffer} {u r : Text} (hdata : buf.data = u ++ r)
    (hpos : buf.pos = u.length) (hr : ':' ∉ r) : readFrame buf = ([], buf) := by
  have htake : r.takeWhile (· ≠ ':') = r := by
    have := takeWhile_field hr []
    rwa [List.append_nil, List.takeWhile_nil, List.append_nil] at this
  have hstop : colonFrom buf.data (buf.data.length - buf.pos).toNat buf.pos = buf.data.length := by
    rw [hpos, hdata, colonFrom_eq _ _ (by rw [List.length_append]; omega), htake, List.length_append]
  rw [readFrame]
  dsimp only
  rw [hstop, if_pos (Int.le_refl _)]

/-- A frame with a length field: what is read and where the cursor goes. -/
theorem readFrame_some {buf : Buffer} {u d r : Text} (hdata : buf.data = u ++ (d ++ ':' :: r))
    (hpos : buf.pos = u.length) (hd : ':' ∉ d) :
    readFrame buf =
      if parseFrameLen d < 0 then ([], buf)
      else if toInt64 (u.length + d.length + 1 + parseFrameLen d) > buf.data.length then ([], buf)
      else
        (orbitStringSlice buf.data (u.length + d.length + 1)
            (toInt64 (u.length + d.length + 1 + parseFrameLen d)),
          { buf with pos := toInt64 (u.length + d.length + 1 + parseFrameLen d) }) := by
  have htake : (d ++ ':' :: r).takeWhile (· ≠ ':') = d := by
    rw [takeWhile_field hd, List.takeWhile_cons_of_neg (by decide), List.append_nil]
  have hlen : buf.data.length = u.length + d.length + 1 + r.length := by
    rw [hdata, List.length_append, List.length_append, List.length_cons]
    omega
  have hstop : colonFrom buf.data (buf.data.length - buf.pos).toNat buf.pos =
      (u.length + d.length : Nat) := by
    have hrest : (d ++ ':' :: r).length ≤ ((u ++ (d ++ ':' :: r)).length - u.length : Int).toNat := by
      rw [@List.length_append _ u]
      omega
    rw [hpos, hdata, colonFrom_eq _ _ hrest, htake]
  have hfield : orbitStringSlice buf.data buf.pos (u.length + d.length : Nat) = d := by
    rw [hpos, orbitStringSlice_eq (by omega) (by omega), hdata, List.drop_left, Nat.add_sub_cancel_left,
      List.take_left]
  rw [readFrame]
  dsimp only
  rw [hstop, hfield, if_neg (by omega), Int.natCast_add]

/-! ## Frames in the order they were written -/

def frame (s : Text) : Text := Nat.toDigits 10 s.length ++ ':' :: s

/-- Behind the cursor stand the frames of a queue. -/
def Holds (buf : Buffer) (q : List Text) : Prop :=
  ∃ u, buf.data = u ++ q.flatMap frame ∧ buf.pos = u.length

theorem intToString_nat (n : Nat) : Lib.Text.intToString n = Nat.toDigits 10 n := by
  rw [Lib.Text.intToString, if_neg (by omega), Int.natAbs_natCast]

theorem colon_not_mem_digits (n : Nat) : ':' ∉ Nat.toDigits 10 n := fun h =>
  absurd (Lib.Decimal.isDigit_of_mem_digits h) (by decide)

theorem parseFrameLen_digits {n : Nat} (h : n < 2 ^ 63) : parseFrameLen (Nat.toDigits 10 n) = n := by
  rw [parseFrameLen_number Nat.toDigits_ne_nil fun _ hc => Lib.Decimal.isDigit_of_mem_digits hc,
    Lib.Decimal.digitsValue_digits, toInt64_of_range (by omega)]

theorem appendSlice_some {buf buf' : Buffer} {s : Text} (h : appendSlice buf s = some buf') :
    buf'.data = buf.data ++ s ∧ buf'.pos = buf.pos := by
  rw [appendSlice] at h
  split_ifs at h
  obtain rfl := Option.some.inj h
  exact ⟨rfl, rfl⟩

theorem appendSlice_fits (buf : Buffer) {s : Text} (h : (buf.data ++ s).length < 2 ^ 63) :
    appendSlice buf s = some ⟨buf.data ++ s, buf.pos, h⟩ := dif_pos h

theorem writeFrame_fits (buf : Buffer) {s : Text} (h : (buf.data ++ frame s).length < 2 ^ 63) :
    ∃ buf', writeFrame buf s = some buf' ∧ buf'.data = buf.data ++ frame s ∧ buf'.pos = buf.pos := by
  have hlen : (buf.data ++ frame s).length =
      buf.data.length + (Nat.toDigits 10 s.length).length + 1 + s.length := by
    rw [List.length_append, frame, List.length_append, List.length_cons]
    omega
  have h1 : (buf.data ++ Nat.toDigits 10 s.length).length < 2 ^ 63 := by
    rw [List.length_append]
    omega
  have h2 : (buf.data ++ Nat.toDigits 10 s.length ++ [':']).length < 2 ^ 63 := by
    rw [List.length_append, List.length_append, List.length_singleton]
    omega
  have h3 : (buf.data ++ Nat.toDigits 10 s.length ++ [':'] ++ s).length < 2 ^ 63 := by
    rw [List.length_append, List.length_append, List.length_append, List.length_singleton]
    omega
  refine ⟨⟨_, buf.pos, h3⟩, ?_, ?_, rfl⟩
  rotate_left
  · rw [frame]
    simp only [List.append_assoc, List.singleton_append]
  rw [writeFrame, intToString_nat, appendSlice_fits buf h1]
  exact (congrArg (· >>= fun buf => appendSlice buf s) (appendSlice_fits ⟨_, _, h1⟩ h2)).trans
    (appendSlice_fits ⟨_, _, h2⟩ h3)

theorem Holds.write {buf buf' : Buffer} {q : List Text} {s : Text} (h : Holds buf q)
    (hdata : buf'.data = buf.data ++ frame s) (hpos : buf'.pos = buf.pos) : Holds buf' (q ++ [s]) := by
  obtain ⟨u, hu, hup⟩ := h
  refine ⟨u, ?_, hpos.trans hup⟩
  rw [hdata, hu, List.flatMap_append, List.append_assoc, List.flatMap_singleton]

theorem Holds.read_nil {buf : Buffer} (h : Holds buf []) : readFrame buf = ([], buf) := by
  obtain ⟨u, hu, hup⟩ := h
  exact readFrame_none hu hup List.not_mem_nil

/-- The first frame is read, and the cursor goes behind it. -/
theorem Holds.read_cons {buf : Buffer} {x : Text} {q : List Text} (h : Holds buf (x :: q)) :
    ∃ buf', readFrame buf = (x, buf') ∧ Holds buf' q ∧ buf'.data = buf.data := by
  obtain ⟨u, hu, hup⟩ := h
  have hdata : buf.data =
      u ++ (Nat.toDigits 10 x.length ++ ':' :: (x ++ q.flatMap frame)) := by
    rw [hu, List.flatMap_cons, frame, List.append_assoc, List.cons_append]
  have hlen : buf.data.length = u.length + (Nat.toDigits 10 x.length).length + 1 + x.length +
      (q.flatMap frame).length := by
    rw [hdata, List.length_append, List.length_append, List.length_cons, List.length_append]
    omega
  have hfits := buf.fits
  have hcount := parseFrameLen_digits (n := x.length) (by omega)
  have hend : toInt64 (u.length + (Nat.toDigits 10 x.length).length + 1 + x.length) =
      (u.length + (Nat.toDigits 10 x.length).length + 1 + x.length : Nat) := by
    rw [toInt64_of_range (by omega)]
    omega
  have hslice : orbitStringSlice buf.data (u.length + (Nat.toDigits 10 x.length).length + 1 : Nat)
      (u.length + (Nat.toDigits 10 x.length).length + 1 + x.length : Nat) = x := by
    have hsplit : buf.data =
        (u ++ (Nat.toDigits 10 x.length ++ [':'])) ++ (x ++ q.flatMap frame) := by
      rw [hdata]
      simp only [List.append_assoc, List.singleton_append]
    have hpre : u.length + (Nat.toDigits 10 x.length).length + 1 =
        (u ++ (Nat.toDigits 10 x.length ++ [':'])).length := by
      rw [List.length_append, List.length_append, List.length_singleton, Nat.add_assoc]
    rw [orbitStringSlice_eq (by omega) (by omega), Nat.add_sub_cancel_left, hsplit, hpre,
      List.drop_left, List.take_left]
  refine ⟨{ buf with pos := (u.length + (Nat.toDigits 10 x.length).length + 1 + x.length : Nat) }, ?_,
    ⟨u ++ frame x, ?_, ?_⟩, rfl⟩
  · rw [readFrame_some hdata hup (colon_not_mem_digits _), hcount, hend, if_neg (by omega),
      if_neg (by omega)]
    exact congrArg (·, _) hslice
  · rw [hu, List.flatMap_cons, List.append_assoc]
  · have hnext : (u ++ frame x).length =
        u.length + (Nat.toDigits 10 x.length).length + 1 + x.length := by
      rw [frame, List.length_append, List.length_append, List.length_cons]
      omega
    exact congrArg Nat.cast hnext.symm

/-- The operations of a program that keeps to frames. -/
inductive FrameOp where
  | write (s : Text)
  | read
  | clear

def FrameOp.op : FrameOp → Op
  | .write s => .writeFrame s
  | .read => .readFrame
  | .clear => .clear

/-- What a queue does: what comes out, and what is left. There is nothing to read from an empty one. -/
def serve : List Text → List FrameOp → List Text × List Text
  | q, [] => ([], q)
  | q, .write s :: ops => serve (q ++ [s]) ops
  | [], .read :: ops => ([] :: (serve [] ops).1, (serve [] ops).2)
  | x :: q, .read :: ops => (x :: (serve q ops).1, (serve q ops).2)
  | _, .clear :: ops => serve [] ops

/-- The bytes of the frames that are written. -/
def written (ops : List FrameOp) : Nat :=
  (ops.map fun op => match op with | .write s => (frame s).length | _ => 0).sum

theorem Holds.run {buf : Buffer} {q : List Text} (h : Holds buf q) (ops : List FrameOp)
    (hfits : buf.data.length + written ops < 2 ^ 63) : ∃ buf',
      run buf (ops.map FrameOp.op) = some ((serve q ops).1, buf') ∧ Holds buf' (serve q ops).2 := by
  induction ops generalizing buf q with
  | nil => exact ⟨buf, rfl, h⟩
  | cons op ops ih =>
    have hcons (o : Option Text) (buf₁ : Buffer) (hstep : step buf op.op = some (o, buf₁)) :
        Bytes.run buf ((op :: ops).map FrameOp.op) =
          (Bytes.run buf₁ (ops.map FrameOp.op)).map fun r => (o.toList ++ r.1, r.2) := by
      rw [List.map_cons, Bytes.run, hstep]
      rfl
    cases op with
    | write s =>
      have hsum : written (.write s :: ops) = (frame s).length + written ops := rfl
      obtain ⟨buf₁, hwrite, hdata, hpos⟩ := writeFrame_fits buf
        (show (buf.data ++ frame s).length < 2 ^ 63 by rw [List.length_append]; omega)
      obtain ⟨buf', hrun, hq⟩ := ih (h.write hdata hpos)
        (by rw [hdata, List.length_append]; omega)
      refine ⟨buf', ?_, hq⟩
      rw [hcons none buf₁ (by rw [FrameOp.op, step, hwrite]; rfl), hrun]
      rfl
    | read =>
      have hsum : written (.read :: ops) = 0 + written ops := rfl
      cases q with
      | nil =>
        obtain ⟨buf', hrun, hq⟩ := ih h (by omega)
        refine ⟨buf', ?_, hq⟩
        rw [hcons (some []) buf (by rw [FrameOp.op, step, h.read_nil]), hrun]
        rfl
      | cons x q =>
        obtain ⟨buf₁, hread, hq₁, hdata⟩ := h.read_cons
        obtain ⟨buf', hrun, hq⟩ := ih hq₁ (by rw [hdata]; omega)
        refine ⟨buf', ?_, hq⟩
        rw [hcons (some x) buf₁ (by rw [FrameOp.op, step, hread]), hrun]
        rfl
    | clear =>
      have hsum : written (.clear :: ops) = 0 + written ops := rfl
      obtain ⟨buf', hrun, hq⟩ := ih (show Holds newBuffer [] from ⟨[], rfl, rfl⟩)
        (by rw [show newBuffer.data.length = 0 from rfl]; omega)
      refine ⟨buf', ?_, ?_⟩
      · rw [hcons none newBuffer rfl, hrun]
        cases q <;> rfl
      · cases q <;> exact hq

/-- **A buffer of frames is a queue**: as long as they fit in memory, what is read is what was written,
in that order. -/
theorem frames_in_order (ops : List FrameOp) (h : written ops < 2 ^ 63) : ∃ buf,
    run newBuffer (ops.map FrameOp.op) = some ((serve [] ops).1, buf) ∧ Holds buf (serve [] ops).2 :=
  (show Holds newBuffer [] from ⟨[], rfl, rfl⟩).run ops
    (by rw [show newBuffer.data.length = 0 from rfl]; omega)

/-- Two frames, the second of which is empty, and a read too many. -/
theorem frames_in_order_three : ∃ buf,
    run newBuffer [.writeFrame ['a', ':'], .readFrame, .writeFrame [], .readFrame, .readFrame] =
      some ([['a', ':'], [], []], buf) ∧ Holds buf [] :=
  frames_in_order [.write ['a', ':'], .read, .write [], .read, .read] (by decide)

/-! ## The cursor -/

/-- What is left of the data. -/
def Buffer.rest (buf : Buffer) : Text := buf.data.drop buf.pos.toNat

/-- The length field at the cursor claims so much that the position behind the frame wraps. -/
def Overflows (buf : Buffer) : Prop := ':' ∈ buf.rest ∧
  2 ^ 63 ≤ buf.pos + (buf.rest.takeWhile (· ≠ ':')).length + 1 +
    parseFrameLen (buf.rest.takeWhile (· ≠ ':'))

instance (buf : Buffer) : Decidable (Overflows buf) :=
  inferInstanceAs (Decidable (_ ∧ _))

theorem parseFrameLen_lt (d : Text) : -2 ^ 63 ≤ parseFrameLen d ∧ parseFrameLen d < 2 ^ 63 := by
  have hlow := Int.le_bmod (x := digitsValue d) (m := 2 ^ 64) (by decide)
  have hhigh := Int.bmod_lt (x := digitsValue d) (m := 2 ^ 64) (by decide)
  rcases parseFrameLen_cases d with h | h
  · rw [h, toInt64]
    omega
  · rw [h]
    omega

theorem toInt64_wraps {n : Int} (h : 2 ^ 63 ≤ n ∧ n < 2 ^ 64) : toInt64 n < 0 := by
  rw [toInt64, Int.bmod_eq_emod, if_pos (by omega)]
  omega

theorem rest_eq {buf : Buffer} {u r : Text} (hdata : buf.data = u ++ r) (hpos : buf.pos = u.length) :
    buf.rest = r := by
  rw [Buffer.rest, hdata, hpos, Int.toNat_natCast, List.drop_left]

theorem rest_cases {buf : Buffer} (h : buf.Bounded) :
    (∃ u r, buf.data = u ++ r ∧ buf.pos = u.length ∧ ':' ∉ r) ∨
      ∃ u d r, buf.data = u ++ (d ++ ':' :: r) ∧ buf.pos = u.length ∧ ':' ∉ d := by
  obtain ⟨u, r, hdata, hpos⟩ := h.split
  by_cases hr : ':' ∈ r
  · obtain ⟨d, r, rfl, hd⟩ := List.eq_append_cons_of_mem hr
    exact .inr ⟨u, d, r, hdata, hpos, hd⟩
  · exact .inl ⟨u, r, hdata, hpos, hr⟩

/-- **A read keeps the cursor in the data unless the length it finds overflows.** -/
theorem readFrame_bounded {buf : Buffer} (h : buf.Bounded) :
    (readFrame buf).2.Bounded ↔ ¬ Overflows buf := by
  rcases rest_cases h with ⟨u, r, hdata, hpos, hr⟩ | ⟨u, d, r, hdata, hpos, hd⟩
  · rw [readFrame_none hdata hpos hr]
    exact ⟨fun _ ho => hr (rest_eq hdata hpos ▸ ho.1), fun _ => h⟩
  · have hrest : buf.rest = d ++ ':' :: r := rest_eq hdata hpos
    have hfield : buf.rest.takeWhile (· ≠ ':') = d := by
      rw [hrest, takeWhile_field hd, List.takeWhile_cons_of_neg (by decide), List.append_nil]
    have hmem : ':' ∈ buf.rest := by
      rw [hrest]
      exact List.mem_append_right d List.mem_cons_self
    have hlen : buf.data.length = u.length + d.length + 1 + r.length := by
      rw [hdata, List.length_append, List.length_append, List.length_cons]
      omega
    have hfits := buf.fits
    have hrange := parseFrameLen_lt d
    have hover : Overflows buf ↔ 2 ^ 63 ≤ (u.length : Int) + d.length + 1 + parseFrameLen d := by
      rw [Overflows, hfield, hpos]
      exact and_iff_right hmem
    rw [readFrame_some hdata hpos hd, hover]
    split_ifs with hneg hlong
    · exact ⟨fun _ => by omega, fun _ => h⟩
    · refine ⟨fun _ ho => ?_, fun _ => h⟩
      have := toInt64_wraps ⟨ho, by omega⟩
      omega
    · constructor
      · intro hb ho
        have hb : 0 ≤ toInt64 (u.length + d.length + 1 + parseFrameLen d) := hb.1
        have := toInt64_wraps ⟨ho, by omega⟩
        omega
      · intro ho
        have hsame := toInt64_of_range (n := u.length + d.length + 1 + parseFrameLen d) (by omega)
        rw [hsame] at hlong ⊢
        have hpos' : (0 : Int) ≤ u.length + d.length + 1 + parseFrameLen d := by omega
        exact ⟨hpos', Int.not_lt.mp hlong⟩

theorem consume_bounded {buf : Buffer} (h : buf.Bounded) (n : Int64) :
    (consume buf n.toInt).2.Bounded ↔ -buf.pos ≤ n.toInt ∧ n.toInt ≤ availableRead buf := by
  obtain ⟨h0, h1⟩ := h
  have hfits := buf.fits
  have hlow := n.le_toInt
  have hhigh := n.toInt_lt
  have hleft : availableRead buf = buf.data.length - buf.pos := toInt64_of_range (by omega)
  have hiff : (consume buf n.toInt).2.Bounded ↔
      0 ≤ toInt64 (buf.pos + n.toInt) ∧ toInt64 (buf.pos + n.toInt) ≤ buf.data.length := Iff.rfl
  rw [hiff, hleft]
  by_cases hwrap : 2 ^ 63 ≤ buf.pos + n.toInt
  · have := toInt64_wraps ⟨hwrap, by omega⟩
    omega
  · rw [toInt64_of_range (by omega)]
    omega

/-- When an operation keeps the cursor in the data. -/
def StepOk (buf : Buffer) : Op → Prop
  | .readFrame => ¬ Overflows buf
  | .consume n => -buf.pos ≤ n.toInt ∧ n.toInt ≤ availableRead buf
  | _ => True

theorem appendSlice_bounded {buf buf' : Buffer} {s : Text} (h : buf.Bounded)
    (happ : appendSlice buf s = some buf') : buf'.Bounded := by
  obtain ⟨hdata, hpos⟩ := appendSlice_some happ
  obtain ⟨h0, h1⟩ := h
  rw [Buffer.Bounded, hdata, hpos, List.length_append]
  omega

theorem writeFrame_bounded {buf buf' : Buffer} {s : Text} (h : buf.Bounded)
    (hw : writeFrame buf s = some buf') : buf'.Bounded := by
  obtain ⟨b1, h1, hw⟩ := Option.bind_eq_some_iff.mp hw
  obtain ⟨b2, h2, h3⟩ := Option.bind_eq_some_iff.mp hw
  exact appendSlice_bounded (appendSlice_bounded (appendSlice_bounded h h1) h2) h3

theorem step_bounded {buf : Buffer} (h : buf.Bounded) {op : Op} {r : Option Text × Buffer}
    (hstep : step buf op = some r) : r.2.Bounded ↔ StepOk buf op := by
  have happend {o : Option Buffer} (hb : ∀ b, o = some b → b.Bounded)
      (ho : o.map (fun b => ((none : Option Text), b)) = some r) : r.2.Bounded := by
    obtain ⟨b, hsome, rfl⟩ := Option.map_eq_some_iff.mp ho
    exact hb b hsome
  cases op with
  | appendByte code =>
    exact iff_of_true (happend (fun b hb => appendSlice_bounded h hb) hstep) trivial
  | appendSlice s =>
    exact iff_of_true (happend (fun b hb => appendSlice_bounded h hb) hstep) trivial
  | writeFrame s =>
    exact iff_of_true (happend (fun b hb => writeFrame_bounded h hb) hstep) trivial
  | readFrame =>
    obtain rfl := Option.some.inj hstep
    exact readFrame_bounded h
  | consume n =>
    obtain rfl := Option.some.inj hstep
    exact consume_bounded h n
  | clear =>
    obtain rfl := Option.some.inj hstep
    exact iff_of_true ⟨Int.le_refl 0, Int.le_refl 0⟩ trivial

theorem stepOk_of_none {buf : Buffer} {op : Op} (h : step buf op = none) : StepOk buf op := by
  cases op with
  | readFrame => exact nomatch h
  | consume n => exact nomatch h
  | _ => trivial

theorem mem_buffers (buf : Buffer) (ops : List Op) : buf ∈ buffers buf ops := by
  cases ops with
  | nil => exact List.mem_singleton.mpr rfl
  | cons op ops => exact List.mem_cons_self

theorem buffers_bounded_iff {buf : Buffer} (h : buf.Bounded) (ops : List Op) :
    (∀ b ∈ buffers buf ops, b.Bounded) ↔ ∀ s ∈ steps buf ops, StepOk s.1 s.2 := by
  induction ops generalizing buf with
  | nil =>
    refine iff_of_true (fun b hb => ?_) fun s hs => absurd hs List.not_mem_nil
    rwa [List.mem_singleton.mp hb]
  | cons op ops ih =>
    rw [buffers, steps, List.forall_mem_cons, List.forall_mem_cons, and_iff_right h]
    cases hstep : step buf op with
    | none =>
      exact iff_of_true (fun b hb => absurd hb List.not_mem_nil)
        ⟨stepOk_of_none hstep, fun s hs => absurd hs List.not_mem_nil⟩
    | some r =>
      have hkeep := step_bounded h hstep
      by_cases hok : StepOk buf op
      · exact (ih (hkeep.mpr hok)).trans (and_iff_right hok).symm
      · exact iff_of_false (fun hall => hok (hkeep.mp (hall r.2 (mem_buffers r.2 ops))))
          fun hall => hok hall.1

/-- **The cursor stays in the data** on exactly the runs whose reads find no length that overflows and
whose consumes ask for no more than there is. -/
theorem cursor_bounded_iff (ops : List Op) :
    (∀ b ∈ buffers newBuffer ops, b.Bounded) ↔ ∀ s ∈ steps newBuffer ops, StepOk s.1 s.2 :=
  buffers_bounded_iff ⟨Int.le_refl 0, Int.le_refl 0⟩ ops

/-- A frame that claims 2^63 - 1 bytes. -/
example : Overflows ⟨"9223372036854775807:".toList, 0, by decide⟩ := by decide +kernel

end Stdlib.Bytes
