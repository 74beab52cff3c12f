import Orbit.Lib.Probe
import Orbit.Runtime.Map
import Mathlib.Data.Set.Card

/-!
# The hash map is a finite map

The buckets of a map that operations have built are chained, hold no key twice and always leave a
free one (`WellFormed`); so each loop ends, and each operation answers what a finite map from texts
to values answers (`orbitMap_refines`).
-/

namespace Runtime.Map

open Lib.Probe (dist next Chained Repairing Distinct Holds load)

variable {P K V : Type}

/-! ## Buckets as slots -/

@[simp] theorem bucketCount_put (m : OrbitMap P V) (idx : Nat) (e : OrbitMapEntry P V) :
    (m.put idx e).bucketCount = m.bucketCount := List.length_set ..

@[simp] theorem bucketCount_clear (m : OrbitMap P V) (idx : Nat) :
    (m.clear idx).bucketCount = m.bucketCount := List.length_set ..

theorem slot_set (l : List (Option (OrbitMapEntry P V))) {idx : Nat} (h : idx < l.length)
    (b : Option (OrbitMapEntry P V)) :
    (fun i => (l.set idx b).getD i none) = Function.update (fun i => l.getD i none) idx b := by
  funext i
  by_cases hi : i = idx
  · subst hi
    simp [h]
  · rw [Function.update_of_ne hi]
    simp [List.getD_eq_getElem?_getD, List.getElem?_set_ne (Ne.symm hi)]

theorem slot_put {m : OrbitMap P V} {idx : Nat} (h : idx < m.bucketCount)
    (e : OrbitMapEntry P V) : (m.put idx e).slot = Function.update m.slot idx (some e) :=
  slot_set m.buckets h (some e)

theorem slot_clear {m : OrbitMap P V} {idx : Nat} (h : idx < m.bucketCount) :
    (m.clear idx).slot = Function.update m.slot idx none :=
  slot_set m.buckets h none

/-- The number of buckets is a power of two, from 16 on. -/
def Sized (m : OrbitMap P V) : Prop := ∃ k, 4 ≤ k ∧ m.bucketCount = 2 ^ k

theorem Sized.le {m : OrbitMap P V} (h : Sized m) : 16 ≤ m.bucketCount := by
  obtain ⟨k, hk, hm⟩ := h
  rw [hm]
  exact Nat.pow_le_pow_right (n := 2) (by decide) hk

theorem Sized.pos {m : OrbitMap P V} (h : Sized m) : 0 < m.bucketCount :=
  Nat.lt_of_lt_of_le (by decide) h.le

theorem Sized.mask {m : OrbitMap P V} (h : Sized m) (v : Nat) :
    mask v m.bucketCount = v % m.bucketCount := by
  obtain ⟨k, -, hm⟩ := h
  rw [Map.mask, hm, Nat.and_two_pow_sub_one_eq_mod]

/-- The first bucket of an entry's search. -/
def home (n : Nat) (e : OrbitMapEntry P V) : Nat := e.hash.toNat % n

theorem probe_eq {m : OrbitMap P V} (h : Sized m) (stop : Option (OrbitMapEntry P V) → Bool)
    (fuel idx : Nat) :
    probe stop m fuel idx = Lib.Probe.probe m.bucketCount (fun i => stop (m.slot i)) fuel idx := by
  induction fuel generalizing idx with
  | zero => rfl
  | succ fuel ih => rw [probe, Lib.Probe.probe, h.mask, ih, next]

/-- A search for a free bucket finds the first one. -/
theorem probeFree_spec {m : OrbitMap P V} (h : Sized m) (hfree : ∃ k < m.bucketCount,
    m.slot k = none) (hash : UInt32) :
    ∃ f < m.bucketCount, probeFree m hash = some f ∧ m.slot f = none ∧
      ∀ w < m.bucketCount, m.slot w = none →
        dist m.bucketCount (hash.toNat % m.bucketCount) f ≤
          dist m.bucketCount (hash.toNat % m.bucketCount) w := by
  have hstop : ∃ k < m.bucketCount, (m.slot k).isNone = true := by
    obtain ⟨k, hk, hfree⟩ := hfree
    exact ⟨k, hk, by rw [hfree]; rfl⟩
  obtain ⟨f, hf, hprobe, hnone, hmin⟩ :=
    Lib.Probe.exists_probe _ (Nat.mod_lt hash.toNat h.pos) hstop
  refine ⟨f, hf, ?_, Option.isNone_iff_eq_none.mp hnone, fun w hw hwfree => ?_⟩
  · rw [probeFree, h.mask, probe_eq h, hprobe]
  · exact hmin w hw (by rw [hwfree]; rfl)

/-! ## The invariant -/

section
variable (text : P → K) (hashOf : K → UInt32)

/-- The buckets of a map between two operations. -/
structure WellFormed (m : OrbitMap P V) : Prop where
  sized : Sized m
  chained : Chained m.bucketCount (home m.bucketCount) m.slot
  hashed : ∀ x, Holds m.slot x → x.hash = hashOf (text x.key)
  distinct : Distinct (fun x : OrbitMapEntry P V => text x.key) m.slot
  counted : m.count = load m.bucketCount m.slot
  room : m.count < m.bucketCount

theorem slot_create : (orbitMapCreate : OrbitMap P V).slot = fun _ => none := by
  funext i
  simp [OrbitMap.slot, orbitMapCreate]

theorem wellFormed_create : WellFormed text hashOf (orbitMapCreate : OrbitMap P V) := by
  refine ⟨⟨4, by decide, rfl⟩, ?_, ?_, ?_, ?_, Nat.zero_lt_succ 15⟩
  · rw [slot_create]
    exact Chained.empty
  · rw [slot_create]
    rintro x ⟨i, hi⟩
    cases hi
  · rw [slot_create]
    intro i j x y hx
    cases hx
  · rw [slot_create, Lib.Probe.load_empty]
    rfl

end

section
variable {text : P → K} {hashOf : K → UInt32}

theorem WellFormed.free {m : OrbitMap P V} (h : WellFormed text hashOf m) :
    ∃ k < m.bucketCount, m.slot k = none :=
  Lib.Probe.exists_free_of_load (h.counted ▸ h.room)

theorem home_lt {m : OrbitMap P V} (h : Sized m) (x : OrbitMapEntry P V) :
    home m.bucketCount x < m.bucketCount := Nat.mod_lt _ h.pos

section
variable [DecidableEq P] [DecidableEq K]

theorem sameKey_iff {m : OrbitMap P V} (h : WellFormed text hashOf m) {key : P}
    {x : OrbitMapEntry P V} (hx : Holds m.slot x) :
    sameKey text hashOf key x = true ↔ text x.key = text key := by
  simp only [sameKey, Bool.or_eq_true, decide_eq_true_eq, Bool.and_eq_true]
  constructor
  · rintro (hkey | ⟨-, htext⟩)
    · rw [hkey]
    · exact htext
  · intro htext
    exact .inr ⟨by rw [h.hashed x hx, htext], htext⟩

/-- **The search of a key** ends at its entry, or at the first free bucket when there is none. -/
theorem probeKey_spec {m : OrbitMap P V} (h : WellFormed text hashOf m) (key : P) :
    ∃ i < m.bucketCount, probeKey text hashOf m key = some i ∧
      ((∃ x, m.slot i = some x ∧ text x.key = text key) ∨
        m.slot i = none ∧ (∀ y, Holds m.slot y → text y.key ≠ text key) ∧
          ∀ w < m.bucketCount, m.slot w = none →
            dist m.bucketCount ((hashOf (text key)).toNat % m.bucketCount) i ≤
              dist m.bucketCount ((hashOf (text key)).toNat % m.bucketCount) w) := by
  let stop : Nat → Bool := fun i => (m.slot i).all (sameKey text hashOf key)
  have hfreeStop : ∀ w, m.slot w = none → stop w = true := by
    intro w hw
    simp only [stop, hw, Option.all_none]
  have hstop : ∃ k < m.bucketCount, stop k = true := by
    obtain ⟨k, hk, hfree⟩ := h.free
    exact ⟨k, hk, hfreeStop k hfree⟩
  obtain ⟨i, hi, hprobe, hs, hmin⟩ :=
    Lib.Probe.exists_probe _ (Nat.mod_lt (hashOf (text key)).toNat h.sized.pos) hstop
  refine ⟨i, hi, by rw [probeKey, h.sized.mask, probe_eq h.sized, hprobe], ?_⟩
  cases hslot : m.slot i with
  | some x =>
    simp only [stop, hslot, Option.all_some] at hs
    exact .inl ⟨x, rfl, (sameKey_iff h ⟨i, hslot⟩).mp hs⟩
  | none =>
    refine .inr ⟨rfl, ?_, fun w hw hfree => hmin w hw (hfreeStop w hfree)⟩
    rintro y ⟨j, hj⟩ hkey
    have hjn : j < m.bucketCount := by
      by_contra hge
      rw [OrbitMap.slot, List.getD_eq_default _ _ (Nat.le_of_not_lt hge)] at hj
      cases hj
    have hjs : stop j = true := by
      simp only [stop, hj, Option.all_some]
      exact (sameKey_iff h ⟨j, hj⟩).mpr hkey
    have hnear := h.chained j hjn y hj i hi hslot
    rw [home, h.hashed y ⟨j, hj⟩, hkey] at hnear
    exact absurd (hmin j hjn hjs) (Nat.not_le.mpr hnear)

end

/-! ## Putting an entry in -/

theorem WellFormed.put {m : OrbitMap P V} (h : WellFormed text hashOf m) {e : OrbitMapEntry P V}
    {f : Nat} (hf : f < m.bucketCount) (hfree : m.slot f = none)
    (hfirst : ∀ w < m.bucketCount, m.slot w = none →
      dist m.bucketCount (home m.bucketCount e) f ≤ dist m.bucketCount (home m.bucketCount e) w)
    (hhash : e.hash = hashOf (text e.key))
    (hnew : ∀ y, Holds m.slot y → text y.key ≠ text e.key)
    (hroom : m.count + 1 < m.bucketCount) : WellFormed text hashOf (m.put f e) := by
  have hslot := slot_put hf e
  refine ⟨h.sized.imp fun k hk => by rwa [bucketCount_put], ?_, ?_, ?_, ?_, ?_⟩
  · rw [hslot, bucketCount_put]
    exact h.chained.insert hfree hfirst (home_lt h.sized e) hf
  · rw [hslot]
    intro x hx
    rcases (Lib.Probe.holds_insert hfree).mp hx with rfl | hx
    · exact hhash
    · exact h.hashed x hx
  · rw [hslot]
    exact h.distinct.insert f hnew
  · rw [hslot, bucketCount_put, Lib.Probe.load_insert hf hfree, ← h.counted]
    rfl
  · rw [bucketCount_put]
    exact hroom

theorem holds_put {m : OrbitMap P V} {e y : OrbitMapEntry P V} {f : Nat} (hf : f < m.bucketCount)
    (hfree : m.slot f = none) : Holds (m.put f e).slot y ↔ y = e ∨ Holds m.slot y := by
  rw [slot_put hf, Lib.Probe.holds_insert hfree]

/-! ## Growing -/

variable (text) in
/-- The new table after the old buckets `old` were put in. -/
structure Rehashed (n : Nat) (old : List (Option (OrbitMapEntry P V))) (new : OrbitMap P V) :
    Prop where
  size : new.bucketCount = n
  chained : Chained n (home n) new.slot
  holds : ∀ y, Holds new.slot y ↔ some y ∈ old
  distinct : Distinct (fun x : OrbitMapEntry P V => text x.key) new.slot
  load : load n new.slot = old.countP Option.isSome

theorem rehash_foldlM {n : Nat} {old : List (Option (OrbitMapEntry P V))}
    (rest : List (Option (OrbitMapEntry P V))) {new : OrbitMap P V}
    (hn : Sized new) (h : Rehashed text n old new)
    (hroom : (old ++ rest).length < n)
    (hdistinct : Distinct (fun x : OrbitMapEntry P V => text x.key)
      fun i => (old ++ rest).getD i none) :
    ∃ new', rest.foldlM rehash new = some new' ∧ Rehashed text n (old ++ rest) new' := by
  induction rest generalizing old new with
  | nil => exact ⟨new, rfl, by rwa [List.append_nil]⟩
  | cons b rest ih =>
    have happend : old ++ b :: rest = (old ++ [b]) ++ rest := by simp
    rw [happend] at hroom hdistinct ⊢
    rw [List.foldlM_cons]
    cases b with
    | none =>
      refine ih hn ⟨h.size, h.chained, fun y => ?_, h.distinct, ?_⟩ hroom hdistinct
      · rw [h.holds y]
        simp
      · rw [h.load, List.countP_append]
        simp
    | some e =>
      have hload : load new.bucketCount new.slot < new.bucketCount := by
        have hle := List.countP_le_length (p := Option.isSome) (l := old)
        simp only [List.length_append] at hroom
        rw [h.size, h.load]
        omega
      obtain ⟨f, hf, hprobe, hfree, hfirst⟩ :=
        probeFree_spec hn (Lib.Probe.exists_free_of_load hload) e.hash
      have hslot := slot_put hf e
      have hnew : ∀ y, Holds new.slot y → text y.key ≠ text e.key := by
        intro y hy hkey
        obtain ⟨i, hi, hyi⟩ := List.getElem_of_mem ((h.holds y).mp hy)
        have h1 : ((old ++ [some e]) ++ rest).getD i none = some y := by
          rw [List.append_assoc, List.getD_append _ _ _ _ hi, List.getD_eq_getElem _ _ hi, hyi]
        have h2 : ((old ++ [some e]) ++ rest).getD old.length none = some e := by
          simp [List.getD_eq_getElem?_getD]
        exact absurd (hdistinct _ _ y e h1 h2 hkey) (Nat.ne_of_lt hi)
      simp only [rehash, hprobe, bind, Option.bind, pure]
      have hcount := h.size
      refine ih (hn.imp fun k hk => by rwa [bucketCount_put])
        ⟨by rw [bucketCount_put, hcount], ?_, fun y => ?_, ?_, ?_⟩ hroom hdistinct
      · rw [hslot, ← hcount]
        refine Chained.insert (hcount ▸ h.chained) hfree hfirst (home_lt hn e) hf
      · rw [hslot, Lib.Probe.holds_insert hfree, h.holds y]
        simp [or_comm, eq_comm]
      · rw [hslot]
        exact h.distinct.insert f hnew
      · rw [hslot, ← hcount, Lib.Probe.load_insert hf hfree, hcount, h.load, List.countP_append]
        simp

/-- A growing map keeps its entries. -/
theorem orbitMapResize_spec {m : OrbitMap P V} (h : WellFormed text hashOf m) :
    ∃ m', orbitMapResize m = some m' ∧ WellFormed text hashOf m' ∧
      m'.count = m.count ∧ m'.bucketCount = m.bucketCount * 2 ∧
      ∀ y, Holds m'.slot y ↔ Holds m.slot y := by
  obtain ⟨k, hk, hm⟩ := h.sized
  let new : OrbitMap P V := { buckets := List.replicate (m.bucketCount * 2) none, count := 0 }
  have hsize : new.bucketCount = m.bucketCount * 2 := List.length_replicate
  have hnew : Sized new := ⟨k + 1, Nat.le_succ_of_le hk, by rw [hsize, hm, Nat.pow_succ]⟩
  have hslot : new.slot = fun _ => none := by
    funext i
    simp [OrbitMap.slot, new]
  have hempty : Rehashed text (m.bucketCount * 2) [] new := by
    refine ⟨hsize, hslot ▸ Chained.empty, fun y => ?_, ?_, ?_⟩
    · rw [hslot]
      simp [Holds]
    · rw [hslot]
      intro i j x y hx
      cases hx
    · rw [hslot, Lib.Probe.load_empty]
      rfl
  have hpos := h.sized.pos
  obtain ⟨m', hfold, hr⟩ := rehash_foldlM m.buckets hnew hempty
    (by
      change m.bucketCount < m.bucketCount * 2
      omega) h.distinct
  rw [List.nil_append] at hr
  have hholds : ∀ y, Holds m'.slot y ↔ Holds m.slot y := by
    intro y
    rw [hr.holds y, List.mem_iff_getElem?]
    refine exists_congr fun i => ?_
    rw [OrbitMap.slot, List.getD_eq_getElem?_getD]
    cases m.buckets[i]? <;> simp
  have hcount : m.count = load m'.bucketCount m'.slot := by
    rw [hr.size, hr.load, h.counted]
    exact Lib.Probe.load_getD m.buckets
  have hsized : Sized m' := ⟨k + 1, Nat.le_succ_of_le hk, by rw [hr.size, hm, Nat.pow_succ]⟩
  refine ⟨{ m' with count := m.count }, by simp [orbitMapResize, new, hfold] , ?_, rfl, hr.size,
    hholds⟩
  exact ⟨hsized, by rw [← hr.size] at hr; exact hr.chained,
    fun x hx => h.hashed x ((hholds x).mp hx), hr.distinct, hcount,
    Nat.lt_of_lt_of_le h.room (hr.size ▸ Nat.le_mul_of_pos_right _ (by decide))⟩

/-! ## Deleting -/

/-- The map while the cluster after a hole is put in again; `next` is the bucket to take out. -/
structure Rehashing (text : P → K) (hashOf : K → UInt32) (z next : Nat) (m : OrbitMap P V) :
    Prop where
  sized : Sized m
  repairing : Repairing m.bucketCount (home m.bucketCount) z next m.slot
  hashed : ∀ x, Holds m.slot x → x.hash = hashOf (text x.key)
  distinct : Distinct (fun x : OrbitMapEntry P V => text x.key) m.slot
  counted : m.count = load m.bucketCount m.slot
  room : m.count < m.bucketCount

/-- One round of the loop of a deletion. -/
theorem Rehashing.step {z next : Nat} {m : OrbitMap P V} (h : Rehashing text hashOf z next m)
    (hz : z < m.bucketCount) (hnext : next < m.bucketCount) {e : OrbitMapEntry P V}
    (he : m.slot next = some e) :
    ∃ target, probeFree (m.clear next) e.hash = some target ∧
      Rehashing text hashOf z (mask (next + 1) m.bucketCount) ((m.clear next).put target e) ∧
      ∀ y, Holds ((m.clear next).put target e).slot y ↔ Holds m.slot y := by
  have hclear := slot_clear hnext
  have hsized : Sized (m.clear next) := h.sized.imp fun k hk => by rwa [bucketCount_clear]
  have hload := Lib.Probe.load_remove hnext he
  have hfreeNext : (m.clear next).slot next = none := by rw [hclear, Function.update_self]
  obtain ⟨f, hf, hprobe, hfree, hfirst⟩ :=
    probeFree_spec hsized ⟨next, by rwa [bucketCount_clear], hfreeNext⟩ e.hash
  have hslot := slot_put hf e
  rw [bucketCount_clear] at hf hfirst
  rw [hclear] at hfree hfirst hslot
  have hpos : 0 < m.count := by
    rw [h.counted, hload]
    exact Nat.succ_pos _
  have hremove := fun y => h.distinct.holds_remove (y := y) he
  have hholds : ∀ y, Holds ((m.clear next).put f e).slot y ↔ Holds m.slot y := by
    intro y
    rw [hslot, Lib.Probe.holds_insert hfree, hremove]
    constructor
    · rintro (rfl | ⟨hy, -⟩)
      · exact ⟨next, he⟩
      · exact hy
    · intro hy
      by_cases hkey : text y.key = text e.key
      · exact .inl (h.distinct.holds hy ⟨next, he⟩ hkey)
      · exact .inr ⟨hy, hkey⟩
  refine ⟨f, hprobe, ⟨?_, ?_, ?_, ?_, ?_, ?_⟩, hholds⟩
  · exact hsized.imp fun k hk => by rwa [bucketCount_put]
  · rw [bucketCount_put, bucketCount_clear, hslot, h.sized.mask]
    exact h.repairing.shift (home_lt h.sized) hz hnext he hf hfree hfirst
  · exact fun x hx => h.hashed x ((hholds x).mp hx)
  · rw [hslot]
    exact (h.distinct.remove next).insert f fun y hy => ((hremove y).mp hy).2
  · rw [bucketCount_put, bucketCount_clear, hslot, Lib.Probe.load_insert hf hfree, ← hload,
      ← h.counted]
    exact Nat.sub_add_cancel hpos
  · rw [bucketCount_put, bucketCount_clear]
    have hcount : ((m.clear next).put f e).count = m.count - 1 + 1 := rfl
    have hroom := h.room
    omega

theorem rehashCluster_spec (fuel : Nat) {z next : Nat} {m : OrbitMap P V}
    (h : Rehashing text hashOf z next m) (hz : z < m.bucketCount) (hnext : next < m.bucketCount)
    (hfuel : m.bucketCount ≤ Lib.Probe.place m.bucketCount z next + fuel) :
    ∃ m', rehashCluster fuel next m = some m' ∧ WellFormed text hashOf m' ∧
      ∀ y, Holds m'.slot y ↔ Holds m.slot y := by
  induction fuel generalizing next m with
  | zero => exact absurd hfuel (Nat.not_le.mpr (Lib.Probe.place_lt hz hnext))
  | succ fuel ih =>
    rw [rehashCluster]
    cases hslot : m.slot next with
    | none =>
      exact ⟨m, rfl, ⟨h.sized, h.repairing.done hz hnext hslot, h.hashed, h.distinct, h.counted,
        h.room⟩, fun y => Iff.rfl⟩
    | some e =>
      obtain ⟨target, hprobe, hstep, hholds⟩ := h.step hz hnext hslot
      have hplace := h.repairing.next_ne hz hnext (by rw [hslot]; exact Option.some_ne_none e)
      have hsize : ((m.clear next).put target e).bucketCount = m.bucketCount := by
        rw [bucketCount_put, bucketCount_clear]
      have hmask := h.sized.mask (next + 1)
      obtain ⟨m', hm', hwf, hholds'⟩ := ih hstep (by rwa [hsize])
        (by rw [hsize, hmask]; exact Lib.Probe.next_lt hnext)
        (by
          rw [hsize, hmask]
          change _ ≤ Lib.Probe.place _ _ (Lib.Probe.next m.bucketCount next) + fuel
          omega)
      exact ⟨m', by simp only [hprobe, bind, Option.bind, hm'], hwf,
        fun y => (hholds' y).trans (hholds y)⟩

/-- **A deletion** frees the bucket of the entry and repairs the rest of the cluster. -/
theorem rehashCluster_clear {m : OrbitMap P V} (h : WellFormed text hashOf m) {idx : Nat}
    (hidx : idx < m.bucketCount) {e : OrbitMapEntry P V} (he : m.slot idx = some e) :
    ∃ m', rehashCluster m.bucketCount (mask (idx + 1) m.bucketCount) (m.clear idx) = some m' ∧
      WellFormed text hashOf m' ∧
      ∀ y, Holds m'.slot y ↔ Holds m.slot y ∧ text y.key ≠ text e.key := by
  have hclear := slot_clear hidx
  obtain ⟨z, hz, -, hrep⟩ := h.chained.repairing (home_lt h.sized) hidx he h.free
  have hload := Lib.Probe.load_remove hidx he
  have hremove := fun y => h.distinct.holds_remove (y := y) he
  have hcount : (m.clear idx).count = m.count - 1 := rfl
  have hstart : Rehashing text hashOf z (mask (idx + 1) m.bucketCount) (m.clear idx) := by
    refine ⟨h.sized.imp fun k hk => by rwa [bucketCount_clear], ?_, ?_, ?_, ?_, ?_⟩
    · rw [bucketCount_clear, hclear, h.sized.mask]
      exact hrep
    · rw [hclear]
      exact fun x hx => h.hashed x ((hremove x).mp hx).1
    · rw [hclear]
      exact h.distinct.remove idx
    · rw [bucketCount_clear, hclear, hcount, h.counted, hload, Nat.add_sub_cancel]
    · rw [bucketCount_clear, hcount]
      have hroom := h.room
      omega
  have hsize := bucketCount_clear m idx
  obtain ⟨m', hm', hwf, hholds⟩ := rehashCluster_spec m.bucketCount hstart
    (by rwa [hsize]) (by rw [hsize, h.sized.mask]; exact Lib.Probe.next_lt hidx)
    (by rw [hsize]; exact Nat.le_add_left ..)
  refine ⟨m', hm', hwf, fun y => ?_⟩
  rw [hholds y, hclear, hremove]

/-! ## The finite map -/

/-- The map from texts to values that the buckets hold. -/
def Represents (text : P → K) (m : OrbitMap P V) (a : K → Option V) : Prop :=
  ∀ k v, a k = some v ↔ ∃ x, Holds m.slot x ∧ text x.key = k ∧ x.value = v

theorem Represents.none {m : OrbitMap P V} {a : K → Option V} (h : Represents text m a) {k : K} :
    a k = none ↔ ∀ x, Holds m.slot x → text x.key ≠ k := by
  rw [Option.eq_none_iff_forall_ne_some]
  constructor
  · intro hno x hx hk
    exact hno x.value ((h k x.value).mpr ⟨x, hx, hk, rfl⟩)
  · intro hno v hv
    obtain ⟨x, hx, hk, -⟩ := (h k v).mp hv
    exact hno x hx hk

section
variable [DecidableEq P] [DecidableEq K]

/-- What a finite map answers and becomes. Only an allocation that is refused makes a `set` fail,
and then nothing is stored. -/
def Answers (text : P → K) (a : K → Option V) :
    MapOp P V → MapAnswer P V → (K → Option V) → Prop
  | .set (some key) (some value) room, .set r, a' =>
    r = .ok value ∧ a' = Function.update a (text key) (some value) ∨
      ¬ (room.buckets = true ∧ room.value = true) ∧ (∃ message, r = .error (.outOfMemory message)) ∧
        a' = a
  | .set _ _ _, .set r, a' => r = .error (.nullPtr "map_set: null argument") ∧ a' = a
  | .get (some key), .get r, a' =>
    (match a (text key) with
      | some v => r = .ok v
      | none => r = .error (.keyNotFound "map_get: key not found")) ∧ a' = a
  | .get none, .get r, a' => r = .error (.nullPtr "map_get: null argument") ∧ a' = a
  | .has key, .has b, a' => b = (key.any fun key => (a (text key)).isSome) ∧ a' = a
  | .delete (some key), .delete r, a' =>
    (match a (text key) with
      | some _ => r = .ok ()
      | none => r = .error (.keyNotFound "map_delete: key not found")) ∧
      a' = Function.update a (text key) none
  | .delete none, .delete r, a' => r = .error (.nullPtr "map_delete: null argument") ∧ a' = a
  | .keys header data, .keys r, a' =>
    (if header && data then
      ∃ keys, r = .ok keys ∧ (keys.map text).Nodup ∧ ∀ k, k ∈ keys.map text ↔ (a k).isSome
    else ∃ message, r = .error (.outOfMemory message)) ∧ a' = a
  | _, _, _ => False

/-- A sequence of operations on a finite map. -/
inductive AnswersAll (text : P → K) :
    (K → Option V) → List (MapOp P V) → List (MapAnswer P V) → (K → Option V) → Prop
  | nil (a) : AnswersAll text a [] [] a
  | cons {a op answer b ops answers c} (step : Answers text a op answer b)
      (rest : AnswersAll text b ops answers c) :
      AnswersAll text a (op :: ops) (answer :: answers) c

omit [DecidableEq P] in
/-- The bucket of the key takes the value. -/
theorem storeAt_occupied {m : OrbitMap P V} (h : WellFormed text hashOf m) {a : K → Option V}
    (ha : Represents text m a) {key : P} (value : V) {idx : Nat} (hidx : idx < m.bucketCount)
    {x : OrbitMapEntry P V} (hx : m.slot idx = some x) (hkey : text x.key = text key) :
    WellFormed text hashOf (storeAt text hashOf m idx key value) ∧
      Represents text (storeAt text hashOf m idx key value)
        (Function.update a (text key) (some value)) := by
  let e : OrbitMapEntry P V := { x with value }
  let m' : OrbitMap P V := { m with buckets := m.buckets.set idx (some e) }
  have hstore : storeAt text hashOf m idx key value = m' := by simp only [storeAt, hx, m', e]
  have hslot : m'.slot = Function.update m.slot idx (some e) := slot_set m.buckets hidx (some e)
  have hsize : m'.bucketCount = m.bucketCount := List.length_set ..
  have hremove := fun y => h.distinct.holds_remove (y := y) hx
  have hcleared : Function.update m.slot idx none idx = none := Function.update_self ..
  have hholds : ∀ y, Holds m'.slot y ↔ y = e ∨ Holds m.slot y ∧ text y.key ≠ text x.key := by
    intro y
    rw [← hremove, ← Lib.Probe.holds_insert hcleared, Function.update_idem, hslot]
  have hload : load m.bucketCount (Function.update m.slot idx (some e)) =
      load m.bucketCount m.slot := by
    rw [Lib.Probe.load_remove hidx hx, ← Lib.Probe.load_insert hidx hcleared e,
      Function.update_idem]
  rw [hstore]
  refine ⟨⟨h.sized.imp fun k hk => by rwa [hsize], ?_, ?_, ?_, ?_, ?_⟩, fun k v => ?_⟩
  · rw [hslot, hsize]
    exact h.chained.replace hx rfl
  · intro y hy
    rcases (hholds y).mp hy with rfl | ⟨hy, -⟩
    · exact h.hashed x ⟨idx, hx⟩
    · exact h.hashed y hy
  · rw [hslot, ← Function.update_idem]
    exact (h.distinct.remove idx).insert idx fun y hy => ((hremove y).mp hy).2
  · rw [hslot, hsize, hload, ← h.counted]
  · rw [hsize]
    exact h.room
  · by_cases hk : k = text key
    · subst hk
      rw [Function.update_self, Option.some.injEq]
      constructor
      · rintro rfl
        exact ⟨e, (hholds e).mpr (.inl rfl), hkey, rfl⟩
      · rintro ⟨y, hy, hyk, hyv⟩
        rcases (hholds y).mp hy with rfl | ⟨-, hne⟩
        · exact hyv
        · exact absurd (hyk.trans hkey.symm) hne
    · rw [Function.update_of_ne hk, ha k v]
      refine exists_congr fun y => and_congr_left fun hyk => ?_
      rw [hholds y]
      constructor
      · exact fun hy => .inr ⟨hy, fun hne => hk (hyk.1.symm.trans (hne.trans hkey))⟩
      · rintro (rfl | ⟨hy, -⟩)
        · exact absurd (hyk.1.symm.trans hkey) hk
        · exact hy

omit [DecidableEq P] in
/-- The free bucket where the search of a new key ended takes the entry. -/
theorem storeAt_free {m : OrbitMap P V} (h : WellFormed text hashOf m) {a : K → Option V}
    (ha : Represents text m a) {key : P} (value : V) {idx : Nat} (hidx : idx < m.bucketCount)
    (hfree : m.slot idx = none) (hnew : ∀ y, Holds m.slot y → text y.key ≠ text key)
    (hfirst : ∀ w < m.bucketCount, m.slot w = none →
      dist m.bucketCount ((hashOf (text key)).toNat % m.bucketCount) idx ≤
        dist m.bucketCount ((hashOf (text key)).toNat % m.bucketCount) w)
    (hroom : m.count + 1 < m.bucketCount) :
    WellFormed text hashOf (storeAt text hashOf m idx key value) ∧
      Represents text (storeAt text hashOf m idx key value)
        (Function.update a (text key) (some value)) := by
  let e : OrbitMapEntry P V := { key, value, hash := hashOf (text key) }
  have hstore : storeAt text hashOf m idx key value = m.put idx e := by
    simp only [storeAt, hfree, e]
  rw [hstore]
  refine ⟨h.put hidx hfree hfirst rfl hnew hroom, fun k v => ?_⟩
  have hholds := fun y => holds_put (e := e) (y := y) hidx hfree
  by_cases hk : k = text key
  · subst hk
    rw [Function.update_self, Option.some.injEq]
    constructor
    · rintro rfl
      exact ⟨e, (hholds e).mpr (.inl rfl), rfl, rfl⟩
    · rintro ⟨y, hy, hyk, hyv⟩
      rcases (hholds y).mp hy with rfl | hy
      · exact hyv
      · exact absurd hyk (hnew y hy)
  · rw [Function.update_of_ne hk, ha k v]
    refine exists_congr fun y => and_congr_left fun hyk => ?_
    rw [hholds y]
    constructor
    · exact .inr
    · rintro (rfl | hy)
      · exact absurd hyk.1.symm hk
      · exact hy

omit [DecidableEq P] [DecidableEq K] in
/-- The map after the check of the load has room for one more entry. -/
theorem growForSet_spec {m : OrbitMap P V} (h : WellFormed text hashOf m) {a : K → Option V}
    (ha : Represents text m a) (room : Room) :
    (∃ m', growForSet m room = some (true, m') ∧ WellFormed text hashOf m' ∧
        Represents text m' a ∧ m'.count + 1 < m'.bucketCount) ∨
      growForSet m room = some (false, m) ∧ room.buckets = false := by
  have hle := h.sized.le
  have hroom := h.room
  by_cases hfull : m.count * 100 ≥ m.bucketCount * orbitMapLoadFactor
  · by_cases hb : room.buckets = true
    · obtain ⟨m', hm', hwf, hcount, hsize, hholds⟩ := orbitMapResize_spec h
      refine .inl ⟨m', by simp only [growForSet, if_pos hfull, if_pos hb, hm', Option.map_some], hwf,
        fun k v => ?_, by omega⟩
      rw [ha k v]
      exact exists_congr fun y => by rw [hholds y]
    · refine .inr ⟨?_, by simpa using hb⟩
      simp only [growForSet, if_pos hfull, if_neg hb]
  · refine .inl ⟨m, by simp only [growForSet, if_neg hfull], h, ha, ?_⟩
    rw [orbitMapLoadFactor] at hfull
    omega

theorem orbitMapSet_spec {m : OrbitMap P V} (h : WellFormed text hashOf m) {a : K → Option V}
    (ha : Represents text m a) (key : Option P) (value : Option V) (room : Room) :
    ∃ r m' a', orbitMapSet text hashOf m key value room = some (r, m') ∧
      WellFormed text hashOf m' ∧ Represents text m' a' ∧
      Answers text a (.set key value room) (.set r) a' := by
  cases key with
  | none => exact ⟨_, m, a, rfl, h, ha, rfl, rfl⟩
  | some key =>
    cases value with
    | none => exact ⟨_, m, a, rfl, h, ha, rfl, rfl⟩
    | some value =>
      rcases growForSet_spec h ha room with ⟨m', hgrow, hwf, hrep, hroom⟩ | ⟨hgrow, hb⟩
      · obtain ⟨idx, hidx, hprobe, hslot⟩ := probeKey_spec hwf key
        by_cases hv : room.value = true
        · obtain ⟨hwf', hrep'⟩ : WellFormed text hashOf (storeAt text hashOf m' idx key value) ∧
              Represents text (storeAt text hashOf m' idx key value)
                (Function.update a (text key) (some value)) := by
            rcases hslot with ⟨x, hx, hkey⟩ | ⟨hfree, hnew, hfirst⟩
            · exact storeAt_occupied hwf hrep value hidx hx hkey
            · exact storeAt_free hwf hrep value hidx hfree hnew hfirst hroom
          refine ⟨_, _, _, ?_, hwf', hrep', .inl ⟨rfl, rfl⟩⟩
          simp [orbitMapSet, hgrow, hprobe, hv]
        · refine ⟨.error (.outOfMemory "map_set: value alloc failed"), m', a, ?_, hwf, hrep,
            .inr ⟨fun hr => hv hr.2, ⟨_, rfl⟩, rfl⟩⟩
          simp [orbitMapSet, hgrow, hprobe, hv]
      · refine ⟨.error (.outOfMemory "map_resize: alloc failed"), m, a, ?_, h, ha,
          .inr ⟨fun hr => by simp [hb] at hr, ⟨_, rfl⟩, rfl⟩⟩
        simp [orbitMapSet, hgrow]

/-- What a search of a key in the buckets answers. -/
theorem probeKey_represents {m : OrbitMap P V} (h : WellFormed text hashOf m) {a : K → Option V}
    (ha : Represents text m a) (key : P) :
    ∃ idx < m.bucketCount, probeKey text hashOf m key = some idx ∧
      ((∃ x, m.slot idx = some x ∧ text x.key = text key ∧ a (text key) = some x.value) ∨
        m.slot idx = none ∧ a (text key) = none) := by
  obtain ⟨idx, hidx, hprobe, ⟨x, hx, hkey⟩ | ⟨hfree, hnew, -⟩⟩ := probeKey_spec h key
  · exact ⟨idx, hidx, hprobe, .inl ⟨x, hx, hkey, (ha _ _).mpr ⟨x, ⟨idx, hx⟩, hkey, rfl⟩⟩⟩
  · exact ⟨idx, hidx, hprobe, .inr ⟨hfree, ha.none.mpr hnew⟩⟩

theorem orbitMapGet_spec {m : OrbitMap P V} (h : WellFormed text hashOf m) {a : K → Option V}
    (ha : Represents text m a) (key : Option P) :
    ∃ r, orbitMapGet text hashOf m key = some r ∧ Answers text a (.get key) (.get r) a ∧
      r.isOk = key.any fun key => (a (text key)).isSome := by
  cases key with
  | none => exact ⟨_, rfl, ⟨rfl, rfl⟩, rfl⟩
  | some key =>
    obtain ⟨idx, -, hprobe, ⟨x, hx, -, hax⟩ | ⟨hfree, hax⟩⟩ := probeKey_represents h ha key
    · refine ⟨.ok x.value, by simp [orbitMapGet, hprobe, hx], ?_, by simp [hax, Except.isOk,
        Except.toBool]⟩
      simp [Answers, hax]
    · refine ⟨.error (.keyNotFound "map_get: key not found"), by simp [orbitMapGet, hprobe, hfree],
        ?_, by simp [hax, Except.isOk, Except.toBool]⟩
      simp [Answers, hax]

theorem orbitMapDelete_spec {m : OrbitMap P V} (h : WellFormed text hashOf m) {a : K → Option V}
    (ha : Represents text m a) (key : Option P) :
    ∃ r m' a', orbitMapDelete text hashOf m key = some (r, m') ∧ WellFormed text hashOf m' ∧
      Represents text m' a' ∧ Answers text a (.delete key) (.delete r) a' := by
  cases key with
  | none => exact ⟨_, m, a, rfl, h, ha, rfl, rfl⟩
  | some key =>
    obtain ⟨idx, hidx, hprobe, ⟨x, hx, hkey, hax⟩ | ⟨hfree, hax⟩⟩ := probeKey_represents h ha key
    · obtain ⟨m', hm', hwf, hholds⟩ := rehashCluster_clear h hidx hx
      refine ⟨.ok (), m', Function.update a (text key) none, by
        simp [orbitMapDelete, hprobe, hx, hm'], hwf, fun k v => ?_, by simp [Answers, hax]⟩
      by_cases hk : k = text key
      · subst hk
        rw [Function.update_self]
        refine ⟨nofun, ?_⟩
        rintro ⟨y, hy, hyk, -⟩
        exact absurd (hyk.trans hkey.symm) ((hholds y).mp hy).2
      · rw [Function.update_of_ne hk, ha k v]
        refine exists_congr fun y => and_congr_left fun hyk => ?_
        rw [hholds y, iff_self_and]
        exact fun _ hne => hk (hyk.1.symm.trans (hne.trans hkey))
    · refine ⟨.error (.keyNotFound "map_delete: key not found"), m, a,
        by simp [orbitMapDelete, hprobe, hfree], h, ha, by simp [hax], ?_⟩
      rw [← hax, Function.update_eq_self]

omit [DecidableEq P] [DecidableEq K] in
theorem keys_spec {m : OrbitMap P V} (h : WellFormed text hashOf m) {a : K → Option V}
    (ha : Represents text m a) :
    ((m.buckets.filterMap fun b => b.map (·.key)).map text).Nodup ∧
      (∀ k, k ∈ (m.buckets.filterMap fun b => b.map (·.key)).map text ↔ (a k).isSome) ∧
      (m.buckets.filterMap fun b => b.map (·.key)).length = m.count := by
  refine ⟨?_, fun k => ?_, ?_⟩
  · have hpair : m.buckets.Pairwise fun b c => ∀ x ∈ b, ∀ y ∈ c, text x.key ≠ text y.key := by
      rw [List.pairwise_iff_getElem]
      intro i j hi hj hij x hx y hy hkey
      have hget : ∀ k (hk : k < m.buckets.length), m.slot k = m.buckets[k] :=
        fun k hk => List.getD_eq_getElem _ _ hk
      have := h.distinct i j x y ((hget i hi).trans hx) ((hget j hj).trans hy) hkey
      omega
    rw [List.map_filterMap, List.Nodup, List.pairwise_filterMap]
    refine hpair.imp fun {b c} hbc k hk l hl => ?_
    simp only [Option.map_map, Option.map_eq_some_iff, Function.comp] at hk hl
    obtain ⟨x, hx, rfl⟩ := hk
    obtain ⟨y, hy, rfl⟩ := hl
    exact hbc x hx y hy
  · rw [Option.isSome_iff_exists]
    have hmem : ∀ x, some x ∈ m.buckets ↔ Holds m.slot x := by
      intro x
      rw [List.mem_iff_getElem?]
      refine exists_congr fun i => ?_
      rw [OrbitMap.slot, List.getD_eq_getElem?_getD]
      cases m.buckets[i]? <;> simp
    simp only [List.mem_map, List.mem_filterMap, Option.map_eq_some_iff, ha k]
    constructor
    · rintro ⟨p, ⟨b, hb, x, rfl, rfl⟩, rfl⟩
      exact ⟨x.value, x, (hmem x).mp hb, rfl, rfl⟩
    · rintro ⟨v, x, hx, rfl, -⟩
      exact ⟨x.key, ⟨some x, (hmem x).mpr hx, x, rfl, rfl⟩, rfl⟩
  · rw [h.counted]
    have hload := Lib.Probe.load_getD m.buckets
    change _ = load m.buckets.length fun i => m.buckets.getD i none
    rw [hload, List.length_filterMap_eq_countP]
    exact List.countP_congr fun b _ => by cases b <;> simp

/-- **One operation** answers what the finite map answers. -/
theorem mapStep_spec {m : OrbitMap P V} (h : WellFormed text hashOf m) {a : K → Option V}
    (ha : Represents text m a) (op : MapOp P V) :
    ∃ answer m' a', mapStep text hashOf m op = some (answer, m') ∧ WellFormed text hashOf m' ∧
      Represents text m' a' ∧ Answers text a op answer a' := by
  cases op with
  | set key value room =>
    obtain ⟨r, m', a', hset, hwf, hrep, hans⟩ := orbitMapSet_spec h ha key value room
    exact ⟨.set r, m', a', by rw [mapStep, hset, Option.map_some], hwf, hrep, hans⟩
  | get key =>
    obtain ⟨r, hget, hans, -⟩ := orbitMapGet_spec h ha key
    exact ⟨.get r, m, a, by rw [mapStep, hget, Option.map_some], h, ha, hans⟩
  | has key =>
    obtain ⟨r, hget, -, hok⟩ := orbitMapGet_spec h ha key
    refine ⟨.has r.isOk, m, a, ?_, h, ha, hok, rfl⟩
    rw [mapStep, orbitMapHas, hget, Option.map_some, Option.map_some]
  | delete key =>
    obtain ⟨r, m', a', hdel, hwf, hrep, hans⟩ := orbitMapDelete_spec h ha key
    exact ⟨.delete r, m', a', by rw [mapStep, hdel, Option.map_some], hwf, hrep, hans⟩
  | keys header data =>
    refine ⟨.keys (orbitMapKeys m header data), m, a, rfl, h, ha, ?_, rfl⟩
    obtain ⟨hnodup, hmem, -⟩ := keys_spec h ha
    cases header <;> cases data
    · exact ⟨_, rfl⟩
    · exact ⟨_, rfl⟩
    · exact ⟨_, rfl⟩
    · exact ⟨_, rfl, hnodup, hmem⟩

theorem mapRun_spec {m : OrbitMap P V} (h : WellFormed text hashOf m) {a : K → Option V}
    (ha : Represents text m a) (ops : List (MapOp P V)) :
    ∃ answers m' a', mapRun text hashOf ops m = some (answers, m') ∧
      WellFormed text hashOf m' ∧ Represents text m' a' ∧ AnswersAll text a ops answers a' := by
  induction ops generalizing m a with
  | nil => exact ⟨[], m, a, rfl, h, ha, .nil a⟩
  | cons op ops ih =>
    obtain ⟨answer, m', a', hstep, hwf, hrep, hans⟩ := mapStep_spec h ha op
    obtain ⟨answers, m'', a'', hrun, hwf', hrep', hall⟩ := ih hwf hrep
    exact ⟨answer :: answers, m'', a'', by simp [mapRun, hstep, hrun], hwf', hrep', .cons hans hall⟩

omit [DecidableEq P] [DecidableEq K] in
theorem represents_create : Represents text (orbitMapCreate : OrbitMap P V) fun _ => none := by
  intro k v
  rw [slot_create]
  simp [Holds]

/-- **The hash map is a finite map.** Every sequence of operations ends, whatever the hash function
is; its answers are those of a map from texts to values, and the count is the number of its keys. -/
theorem orbitMap_refines (text : P → K) (hashOf : K → UInt32) (ops : List (MapOp P V)) :
    ∃ answers m a, mapRun text hashOf ops orbitMapCreate = some (answers, m) ∧
      AnswersAll text (fun _ => none) ops answers a ∧ {k | (a k).isSome}.Finite ∧
      m.count = {k | (a k).isSome}.ncard := by
  obtain ⟨answers, m, a, hrun, hwf, hrep, hall⟩ :=
    mapRun_spec (wellFormed_create text hashOf) represents_create ops
  obtain ⟨hnodup, hmem, hlen⟩ := keys_spec hwf hrep
  have hset : {k | (a k).isSome} =
      (((m.buckets.filterMap fun b => b.map (·.key)).map text).toFinset : Set K) := by
    ext k
    simp only [Set.mem_ofPred_eq, List.coe_toFinset, hmem]
  refine ⟨answers, m, a, hrun, hall, ?_, ?_⟩
  · rw [hset]
    exact Finset.finite_toSet _
  · rw [hset, Set.ncard_coe_finset, List.toFinset_card_of_nodup hnodup, List.length_map, hlen]

end

end

end Runtime.Map
