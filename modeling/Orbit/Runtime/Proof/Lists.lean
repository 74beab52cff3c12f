import Mathlib.Algebra.Group.Int.Defs
import Mathlib.Algebra.Group.Nat.Defs
import Orbit.Runtime.Lists

/-!
# A list is a typed sequence

`TypedSeq` is what a list is for: words of one kind, which the first typed write fixes. A word keeps
the kind of the write it came by, 0 for an untyped one.
-/

namespace Runtime.Lists

/-! ## Typed sequences -/

structure TypedSeq where
  kind : Int32
  elems : List (Int32 × UInt64)
  deriving DecidableEq, Repr

/-- Whether a write of a kind may go on. -/
def TypedSeq.Admits (t : TypedSeq) (kind : Int32) : Prop := kind = 0 ∨ t.kind = 0 ∨ t.kind = kind

instance (t : TypedSeq) (kind : Int32) : Decidable (t.Admits kind) :=
  inferInstanceAs (Decidable (_ ∨ _ ∨ _))

def TypedSeq.adopt (t : TypedSeq) (kind : Int32) : Int32 := if t.kind = 0 then kind else t.kind

/-- `memory` says whether there is room for one more. -/
def TypedSeq.push (memory : Bool) (kind : Int32) (w : UInt64) (t : TypedSeq) : Seen × TypedSeq :=
  if t.Admits kind then
    if memory then (.done, ⟨t.adopt kind, t.elems ++ [(kind, w)]⟩) else (.failed 2, t)
  else (.stopped, t)

def TypedSeq.set (index : Int) (kind : Int32) (w : UInt64) (t : TypedSeq) : Seen × TypedSeq :=
  if 0 ≤ index ∧ index < t.elems.length then
    if t.Admits kind then (.done, ⟨t.adopt kind, t.elems.set index.toNat (kind, w)⟩)
    else (.stopped, t)
  else (.failed 3, t)

def TypedSeq.pop (t : TypedSeq) : Seen × TypedSeq :=
  match t.elems.getLast? with
  | none => (.failed 3, t)
  | some e => (.word e.2, { t with elems := t.elems.dropLast })

def TypedSeq.get (index : Nat) (t : TypedSeq) : Seen :=
  match t.elems[index]? with
  | none => .failed 3
  | some e => .word e.2

def Value.kind : Value → Int32
  | .string _ => 1
  | .int _ => 2
  | .float _ => 3
  | .bool _ => 4
  | .ref _ => 5

def Value.word : Value → UInt64
  | .string p => p
  | .int v => v.toUInt64
  | .float bits => bits
  | .bool b => flagWord b
  | .ref p => p

/-- An operation on a sequence; `code` is the error without one. -/
def onSeq (code : Nat) (f : TypedSeq → Seen × TypedSeq) :
    Option TypedSeq → Seen × Option TypedSeq
  | none => (.failed code, none)
  | some t => (f t).map id some

/-- A new sequence; `t` is what a caller has. -/
def newSeq (memory : Bool) (region global : Nat) (elemSize cap : Int) (kind : Int32)
    (t : Option TypedSeq) : Seen × Option TypedSeq :=
  if (region ≠ 0 ∨ global ≠ 0) ∧ elemSize = 8 ∧ 0 ≤ cap ∧ cap ≤ 2305843009213693951 then
    if memory then (.done, some ⟨kind, []⟩) else (.failed 2, t)
  else (.failed 7, t)

/-- What a caller sees of a call on a typed sequence. -/
def seqCall (memory : Bool) (t : Option TypedSeq) : Call → Seen × Option TypedSeq
  | .create region global elemSize cap => newSeq memory region global elemSize cap 0 t
  | .createTyped region global elemSize cap kind => newSeq memory region global elemSize cap kind t
  | .push none => (.failed 1, t)
  | .push (some w) => onSeq 1 (·.push memory 0 w) t
  | .pushTyped value => onSeq 1 (·.push memory value.kind value.word) t
  | .set _ none => (.failed 1, t)
  | .set index (some w) => onSeq 1 (·.set index 0 w) t
  | .setTyped index value => onSeq 1 (·.set index value.kind value.word) t
  | .pop => onSeq 3 TypedSeq.pop t
  | .get index => onSeq 1 (fun t => (t.get index, t)) t
  | .len => (.length ((t.map fun t => t.elems.length).getD 0), t)
  | .clear => (.done, t.map fun t => { t with elems := [] })

/-- The words written with a kind have the kind of the sequence. -/
def TypedSeq.Agrees (t : TypedSeq) : Prop := ∀ e ∈ t.elems, e.1 = 0 ∨ e.1 = t.kind

/-- All words have it, once it is fixed. -/
def TypedSeq.OneKind (t : TypedSeq) : Prop := t.kind ≠ 0 → ∀ e ∈ t.elems, e.1 = t.kind

theorem Value.kind_ne (v : Value) : v.kind ≠ 0 := by
  cases v <;> rw [Value.kind] <;> decide

theorem TypedSeq.Admits.kind_eq {t : TypedSeq} {kind : Int32} (h : t.Admits kind)
    (hkind : kind ≠ 0) (hne : t.kind ≠ 0) : t.kind = kind := by
  rcases h with h | h | h
  · exact absurd h hkind
  · exact absurd h hne
  · exact h

theorem TypedSeq.adopt_of_admits {t : TypedSeq} {kind : Int32} (h : t.Admits kind)
    (hkind : kind ≠ 0) : t.adopt kind = kind := by
  rw [TypedSeq.adopt]
  split_ifs with h0
  · rfl
  · exact h.kind_eq hkind h0

theorem TypedSeq.adopt_untyped (t : TypedSeq) : t.adopt 0 = t.kind := by
  rw [TypedSeq.adopt]
  split_ifs with h0
  · exact h0.symm
  · rfl

/-- The words that stay agree with the kind that a write adopts. -/
theorem TypedSeq.Agrees.adopt {t : TypedSeq} (h : t.Agrees) (kind : Int32) {e : Int32 × UInt64}
    (he : e ∈ t.elems) : e.1 = 0 ∨ e.1 = t.adopt kind := by
  rw [TypedSeq.adopt]
  split_ifs with h0
  · rcases h e he with h | h
    · exact .inl h
    · exact .inl (h.trans h0)
  · exact h e he

theorem TypedSeq.agrees_written {t : TypedSeq} {kind : Int32} (h : t.Admits kind) :
    kind = 0 ∨ kind = t.adopt kind := by
  by_cases hkind : kind = 0
  · exact .inl hkind
  · exact .inr (TypedSeq.adopt_of_admits h hkind).symm

theorem TypedSeq.Agrees.push {t : TypedSeq} (h : t.Agrees) (memory : Bool) (kind : Int32)
    (w : UInt64) : (t.push memory kind w).2.Agrees := by
  rw [TypedSeq.push]
  split_ifs with hadmits
  · intro e he
    rcases List.mem_append.mp he with he | he
    · exact h.adopt kind he
    · rw [List.mem_singleton.mp he]
      exact TypedSeq.agrees_written hadmits
  · exact h
  · exact h

theorem TypedSeq.Agrees.set {t : TypedSeq} (h : t.Agrees) (index : Int) (kind : Int32)
    (w : UInt64) : (t.set index kind w).2.Agrees := by
  rw [TypedSeq.set]
  split_ifs with hrange hadmits
  · intro e he
    rcases List.mem_or_eq_of_mem_set he with he | rfl
    · exact h.adopt kind he
    · exact TypedSeq.agrees_written hadmits
  · exact h
  · exact h

theorem TypedSeq.Agrees.pop {t : TypedSeq} (h : t.Agrees) : t.pop.2.Agrees := by
  rw [TypedSeq.pop]
  split
  · exact h
  · exact fun e he => h e (List.dropLast_subset _ he)

/-- **The kind of a sequence is that of all typed writes.** -/
theorem agrees_seqCall {memory : Bool} {t : Option TypedSeq} (h : ∀ x ∈ t, x.Agrees) (c : Call) :
    ∀ x ∈ (seqCall memory t c).2, x.Agrees := by
  have hon : ∀ {code : Nat} {f : TypedSeq → Seen × TypedSeq}, (∀ x, x.Agrees → (f x).2.Agrees) →
      ∀ x ∈ (onSeq code f t).2, x.Agrees := by
    intro code f hf x hx
    cases t with
    | none => cases hx
    | some t =>
      cases hx
      exact hf t (h t rfl)
  have hnew : ∀ region global elemSize cap kind,
      ∀ x ∈ (newSeq memory region global elemSize cap kind t).2, x.Agrees := by
    intro region global elemSize cap kind x hx
    rw [newSeq] at hx
    split_ifs at hx
    · cases hx
      exact nofun
    · exact h x hx
    · exact h x hx
  cases c with
  | create region global elemSize cap => exact hnew region global elemSize cap 0
  | createTyped region global elemSize cap kind => exact hnew region global elemSize cap kind
  | push elem =>
    cases elem with
    | none => exact h
    | some w => exact hon fun x hx => hx.push memory 0 w
  | pushTyped value => exact hon fun x hx => hx.push memory value.kind value.word
  | set index elem =>
    cases elem with
    | none => exact h
    | some w => exact hon fun x hx => hx.set index 0 w
  | setTyped index value => exact hon fun x hx => hx.set index value.kind value.word
  | pop => exact hon fun x hx => hx.pop
  | get index => exact hon fun x hx => hx
  | len => exact h
  | clear =>
    intro x hx
    obtain ⟨y, -, rfl⟩ := Option.map_eq_some_iff.mp hx
    exact nofun

/-! ## A list that holds a sequence -/

/-- The words of a sequence are the first ones of the block, whose size in bytes is a word. -/
structure Holds (l : OrbitList) (t : TypedSeq) : Prop where
  kind : l.elemKind = t.kind
  elems : l.data.words.take l.len = t.elems.map Prod.snd
  len_le : l.len ≤ l.capacity
  words : l.data.words.length = l.capacity
  pos : 0 < l.capacity
  fits : 8 * l.capacity < 2 ^ 64
  size : l.elemSize = 8
  data : l.data.addr ≠ 0
  arena : l.arena ≠ 0

theorem Holds.length {l : OrbitList} {t : TypedSeq} (h : Holds l t) : t.elems.length = l.len := by
  have := congrArg List.length h.elems
  rw [List.length_take, h.words, List.length_map, Nat.min_eq_left h.len_le] at this
  exact this.symm

/-- The kind is the only thing that a list and its sequence need to have in common but the words. -/
theorem Holds.withKind {l : OrbitList} {t : TypedSeq} (h : Holds l t) (kind : Int32) :
    Holds { l with elemKind := kind } { t with kind } :=
  ⟨rfl, h.elems, h.len_le, h.words, h.pos, h.fits, h.size, h.data, h.arena⟩

theorem Holds.slot {l : OrbitList} {t : TypedSeq} (h : Holds l t) (index : Nat) :
    (l.slot index - l.data.addr) / 8 = index := by
  rw [OrbitList.slot, h.size, Nat.add_sub_cancel_left, Nat.mul_div_cancel _ (by decide)]

theorem Holds.load {l : OrbitList} {t : TypedSeq} (h : Holds l t) {index : Nat} {e : Int32 × UInt64}
    (he : t.elems[index]? = some e) : l.data.load (l.slot index) = e.2 := by
  have hlt : index < l.len := by
    rw [← h.length]
    exact (List.getElem?_eq_some_iff.mp he).1
  have hword : l.data.words[index]? = some e.2 := by
    rw [← List.getElem?_take_of_lt hlt, h.elems, List.getElem?_map, he]
    rfl
  rw [Block.load, h.slot, List.getD_eq_getElem?_getD, hword]
  rfl

theorem Holds.write {l : OrbitList} {t : TypedSeq} (h : Holds l t) (index : Nat) (kind : Int32)
    (w : UInt64) :
    Holds (l.write index w) { t with elems := t.elems.set index (kind, w) } := by
  refine ⟨h.kind, ?_, h.len_le, ?_, h.pos, h.fits, h.size, h.data, h.arena⟩
  · have hset : (l.write index w).data.words = l.data.words.set index w := by
      rw [OrbitList.write, Block.store, h.slot]
    rw [hset, List.take_set, List.map_set]
    exact congrArg (fun ws => List.set ws index w) h.elems
  · rw [OrbitList.write, Block.store, List.length_set]
    exact h.words

theorem Holds.append {l : OrbitList} {t : TypedSeq} (h : Holds l t) (hroom : l.len < l.capacity)
    (kind : Int32) (w : UInt64) :
    Holds { l.write l.len w with len := l.len + 1 } { t with elems := t.elems ++ [(kind, w)] } := by
  refine ⟨h.kind, ?_, hroom, ?_, h.pos, h.fits, h.size, h.data, h.arena⟩
  · have hset : (l.write l.len w).data.words = l.data.words.set l.len w := by
      rw [OrbitList.write, Block.store, h.slot]
    have hlt : l.len < l.data.words.length := by
      rw [h.words]
      exact hroom
    change (l.write l.len w).data.words.take (l.len + 1) = _
    rw [hset, List.map_append, ← h.elems, List.set_eq_take_append_cons_drop, if_pos hlt,
      List.take_append, List.take_take, List.length_take, Nat.min_eq_left (Nat.le_of_lt hlt),
      Nat.add_sub_cancel_left, Nat.min_eq_right (Nat.le_succ _)]
    rfl
  · rw [OrbitList.write, Block.store, List.length_set]
    exact h.words

theorem Holds.shorter {l : OrbitList} {t : TypedSeq} (h : Holds l t) {len : Nat}
    (hlen : len ≤ l.len) : Holds { l with len } { t with elems := t.elems.take len } := by
  refine ⟨h.kind, ?_, Nat.le_trans hlen h.len_le, h.words, h.pos, h.fits, h.size, h.data, h.arena⟩
  rw [List.map_take, ← h.elems, List.take_take, Nat.min_eq_left hlen]

/-! ## Room -/

/-- Whether one more element has a place, in the block or after it has grown. -/
def OrbitList.room (answers : Answers) (l : OrbitList) : Bool :=
  l.len < l.capacity ||
    (l.capacity ≤ 9223372036854775807 / l.elemSize &&
      (answers.block (l.elemSize * (l.capacity * 2))).isSome)

theorem orbitListGrow_refused {answers : Answers} {l : OrbitList} {t : TypedSeq} (h : Holds l t)
    (hroom : l.room answers = false) : ∃ m, orbitListGrow answers l = .error (.err 2 m) := by
  rw [orbitListGrow, if_neg h.arena]
  rw [OrbitList.room, Bool.or_eq_false_iff, Bool.and_eq_false_iff] at hroom
  split_ifs with hover
  · exact ⟨_, rfl⟩
  · rcases hroom.2 with hcap | hblock
    · exact absurd (Nat.not_lt.mp hover) (of_decide_eq_false hcap)
    · rw [Option.isSome_eq_false_iff, Option.isNone_iff_eq_none] at hblock
      dsimp only
      rw [hblock]
      exact ⟨_, rfl⟩

/-- A list with its words in a new block of twice the size. -/
def OrbitList.grown (l : OrbitList) (g : Grant) : OrbitList :=
  { l with
    data := (g.block (l.elemSize * (l.capacity * 2))).copy l.data (l.len * l.elemSize)
    capacity := l.capacity * 2 }

theorem Holds.grown {l : OrbitList} {t : TypedSeq} (h : Holds l t) (hfull : l.len ≥ l.capacity)
    (hcap : l.capacity ≤ 9223372036854775807 / l.elemSize) (g : Grant) : Holds (l.grown g) t := by
  have hlen : l.len = l.capacity := Nat.le_antisymm h.len_le hfull
  have hpos := h.pos
  have hbytes : l.len * l.elemSize / 8 = l.len := by
    rw [h.size, Nat.mul_div_cancel _ (by decide)]
  have hnew : l.elemSize * (l.capacity * 2) / 8 = l.capacity * 2 := by
    rw [h.size, Nat.mul_div_cancel_left _ (by decide)]
  rw [h.size] at hcap
  refine ⟨h.kind, ?_, ?_, ?_, ?_, ?_, h.size, g.addr_ne, h.arena⟩
  · have hkept : (l.data.words.take l.len).length = l.len := by
      rw [List.length_take, h.words, hlen, Nat.min_self]
    change ((Block.copy _ l.data _).words).take l.len = _
    rw [Block.copy, hbytes, List.take_append_of_le_length (Nat.le_of_eq hkept.symm),
      List.take_take, Nat.min_self, h.elems]
  · change l.len ≤ l.capacity * 2
    omega
  · change ((Block.copy _ l.data _).words).length = l.capacity * 2
    rw [Block.copy, hbytes, List.length_append, List.length_take, h.words, List.length_drop,
      Grant.block, List.length_map, List.length_range, hnew, hlen, Nat.min_self]
    omega
  · change 0 < l.capacity * 2
    omega
  · change 8 * (l.capacity * 2) < 2 ^ 64
    omega

theorem orbitListGrow_granted {answers : Answers} {l : OrbitList} {t : TypedSeq} (h : Holds l t)
    (hfull : l.len ≥ l.capacity) (hroom : l.room answers = true) :
    ∃ l', orbitListGrow answers l = .ok l' ∧ Holds l' t ∧ l'.len < l'.capacity := by
  rw [OrbitList.room, Bool.or_eq_true, Bool.and_eq_true, decide_eq_true_iff, decide_eq_true_iff,
    or_iff_right (Nat.not_lt.mpr hfull)] at hroom
  obtain ⟨hcap, hblock⟩ := hroom
  obtain ⟨g, hblock⟩ := Option.isSome_iff_exists.mp hblock
  refine ⟨l.grown g, ?_, h.grown hfull hcap g, ?_⟩
  · rw [orbitListGrow, if_neg h.arena, if_neg (Nat.not_lt.mpr hcap)]
    dsimp only
    rw [hblock]
    rfl
  · have hle := h.len_le
    have hpos := h.pos
    change l.len < l.capacity * 2
    omega

/-- What the preparation of a slot does when the kind is adopted: the adopted kind stays even where
there is no room. -/
theorem rtPrepareSlot_spec (answers : Answers) {l l₁ : OrbitList} {t₁ : TypedSeq} {kind : Int32}
    (h₁ : Holds l₁ t₁) (hadopt : rtAdoptKind l kind = .ok l₁) :
    (l₁.room answers = true →
        ∃ l', rtPrepareSlot answers l kind = (.ok (), l') ∧ Holds l' t₁ ∧ l'.len < l'.capacity) ∧
      (l₁.room answers = false →
        l₁.len ≥ l₁.capacity ∧ ∃ m, rtPrepareSlot answers l kind = (.error (.err 2 m), l₁)) := by
  rw [rtPrepareSlot, hadopt]
  dsimp only
  constructor
  · intro hroom
    by_cases hfull : l₁.len ≥ l₁.capacity
    · obtain ⟨l', hgrow, hl', hlt⟩ := orbitListGrow_granted h₁ hfull hroom
      rw [if_pos hfull, hgrow]
      exact ⟨l', rfl, hl', hlt⟩
    · rw [if_neg hfull]
      exact ⟨l₁, rfl, h₁, Nat.not_le.mp hfull⟩
  · intro hroom
    have hfull : l₁.len ≥ l₁.capacity := by
      rw [OrbitList.room, Bool.or_eq_false_iff] at hroom
      exact Nat.not_lt.mp (of_decide_eq_false hroom.1)
    obtain ⟨m, hgrow⟩ := orbitListGrow_refused h₁ hroom
    rw [if_pos hfull, hgrow]
    exact ⟨hfull, m, rfl⟩

theorem rtAdoptKind_admits {l : OrbitList} {t : TypedSeq} (h : Holds l t) {kind : Int32}
    (hkind : kind ≠ 0) (hadmits : t.Admits kind) :
    rtAdoptKind l kind = .ok { l with elemKind := kind } := by
  rw [rtAdoptKind, h.kind]
  split_ifs with h0 hne
  · rfl
  · rcases hadmits with hadmits | hadmits | hadmits
    · exact absurd hadmits hkind
    · exact absurd hadmits h0
    · exact absurd hadmits hne
  · rw [ne_eq, not_not] at hne
    rw [← hne, ← h.kind]

theorem rtAdoptKind_refuses {l : OrbitList} {t : TypedSeq} (h : Holds l t) {kind : Int32}
    (hadmits : ¬ t.Admits kind) : rtAdoptKind l kind = .error (.kindError l.elemKind kind) := by
  rw [TypedSeq.Admits, not_or, not_or] at hadmits
  rw [rtAdoptKind, h.kind, if_neg hadmits.2.1, if_pos hadmits.2.2]

theorem rtAdoptKind_self (l : OrbitList) : rtAdoptKind l l.elemKind = .ok l := by
  rw [rtAdoptKind]
  split_ifs with h0 hne
  · rfl
  · exact absurd rfl hne
  · rfl

/-! ## Pushes and sets -/

/-- A push of words. -/
theorem orbitListPush_spec (answers : Answers) {l : OrbitList} {t : TypedSeq} (h : Holds l t)
    (w : UInt64) :
    (l.room answers = true → ∃ l', orbitListPush answers (some l) (some w) = (.ok (), some l') ∧
        Holds l' { t with elems := t.elems ++ [(0, w)] }) ∧
      (l.room answers = false →
        ∃ m, orbitListPush answers (some l) (some w) = (.error (.err 2 m), some l)) := by
  obtain ⟨hgranted, hrefused⟩ := rtPrepareSlot_spec answers h (rtAdoptKind_self l)
  rw [orbitListPush]
  constructor
  · intro hroom
    obtain ⟨l', hprep, hl', hlt⟩ := hgranted hroom
    rw [hprep]
    exact ⟨_, rfl, hl'.append hlt 0 w⟩
  · intro hroom
    obtain ⟨-, m, hprep⟩ := hrefused hroom
    rw [hprep]
    exact ⟨m, rfl⟩

/-- A typed push, with and without the preparation. -/
theorem pushWord_spec (answers : Answers) {l : OrbitList} {t : TypedSeq} (h : Holds l t)
    {kind : Int32} (hkind : kind ≠ 0) (w : UInt64) :
    (¬ t.Admits kind →
        pushWord kind answers (some l) w = (.error (.kindError l.elemKind kind), some l)) ∧
      (t.Admits kind → l.room answers = true →
        ∃ l', pushWord kind answers (some l) w = (.ok (), some l') ∧
          Holds l' ⟨kind, t.elems ++ [(kind, w)]⟩) ∧
      (t.Admits kind → l.room answers = false → l.len ≥ l.capacity ∧
        ∃ m, pushWord kind answers (some l) w =
          (.error (.err 2 m), some { l with elemKind := kind })) := by
  rw [pushWord]
  dsimp only
  refine ⟨fun hadmits => ?_, fun hadmits hroom => ?_, fun hadmits hroom => ?_⟩
  · have hne : l.elemKind ≠ kind := by
      rw [h.kind]
      exact fun heq => hadmits (.inr (.inr heq))
    rw [if_pos (.inl hne), rtPrepareSlot, rtAdoptKind_refuses h hadmits]
  · obtain ⟨l', hprep, hl', hlt⟩ := (rtPrepareSlot_spec answers (h.withKind kind)
      (rtAdoptKind_admits h hkind hadmits)).1 hroom
    split_ifs with hslow
    · rw [hprep]
      exact ⟨_, rfl, hl'.append hlt kind w⟩
    · rw [not_or, ne_eq, not_not] at hslow
      have hl := h.append (Nat.not_le.mp hslow.2) kind w
      rw [h.kind] at hslow
      rw [← hslow.1] at hl ⊢
      exact ⟨_, rfl, hl⟩
  · obtain ⟨hfull, m, hprep⟩ := (rtPrepareSlot_spec answers (h.withKind kind)
      (rtAdoptKind_admits h hkind hadmits)).2 hroom
    rw [if_pos (.inr hfull), hprep]
    exact ⟨hfull, m, rfl⟩

/-- A typed set, with and without the preparation. -/
theorem setWord_spec {l : OrbitList} {t : TypedSeq} (h : Holds l t) {kind : Int32}
    (hkind : kind ≠ 0) (index : Int) (w : UInt64) :
    (¬ (0 ≤ index ∧ index < l.len) →
        ∃ m, setWord kind (some l) index w = (.error (.err 3 m), some l)) ∧
      (0 ≤ index ∧ index < l.len → ¬ t.Admits kind →
        setWord kind (some l) index w = (.error (.kindError l.elemKind kind), some l)) ∧
      (0 ≤ index ∧ index < l.len → t.Admits kind →
        ∃ l', setWord kind (some l) index w = (.ok (), some l') ∧
          Holds l' ⟨kind, t.elems.set index.toNat (kind, w)⟩) := by
  have hready : (some l).any (fun l => decide (0 ≤ index) && decide (index < l.len) &&
      decide (l.elemKind = kind)) = true ↔ (0 ≤ index ∧ index < l.len) ∧ t.kind = kind := by
    rw [Option.any_some, Bool.and_eq_true, Bool.and_eq_true, decide_eq_true_iff,
      decide_eq_true_iff, decide_eq_true_iff, h.kind]
  rw [setWord]
  refine ⟨fun hrange => ?_, fun hrange hadmits => ?_, fun hrange hadmits => ?_⟩
  · rw [if_neg (fun hr => hrange (hready.mp hr).1), rtPrepareSet, if_pos (by omega)]
    exact ⟨_, rfl⟩
  · rw [if_neg (fun hr => hadmits (.inr (.inr (hready.mp hr).2))), rtPrepareSet,
      if_neg (by omega), rtAdoptKind_refuses h hadmits]
  · split_ifs with hr
    · have hl := h.write index.toNat kind w
      rw [← (hready.mp hr).2] at hl ⊢
      exact ⟨_, rfl, hl⟩
    · rw [rtPrepareSet, if_neg (by omega), rtAdoptKind_admits h hkind hadmits]
      exact ⟨_, rfl, (h.withKind kind).write index.toNat kind w⟩

theorem pushTyped_eq (answers : Answers) (list : Option OrbitList) (v : Value) :
    pushTyped answers list v = pushWord v.kind answers list v.word := by
  cases v <;> rfl

theorem setTyped_eq (list : Option OrbitList) (index : Int) (v : Value) :
    setTyped list index v = setWord v.kind list index v.word := by
  cases v <;> rfl

/-! ## Calls -/

/-- Whether a new list gets its header and its block. -/
def newRoom (answers : Answers) (cap : Int) : Bool :=
  answers.header && (answers.block (8 * if cap = 0 then 8 else cap).toNat).isSome

/-- Whether a call gets the memory that it needs. -/
def granted (answers : Answers) (list : Option OrbitList) : Call → Bool
  | .create _ _ _ cap => newRoom answers cap
  | .createTyped _ _ _ cap _ => newRoom answers cap
  | .push _ => list.all (·.room answers)
  | .pushTyped _ => list.all (·.room answers)
  | _ => true

/-- A call that goes as on a typed sequence, and that changes nothing where it fails. -/
structure Refines (answers : Answers) (list : Option OrbitList) (t : Option TypedSeq) (c : Call) :
    Prop where
  seen : (call answers list c).1 = (seqCall (granted answers list c) t c).1
  holds : Option.Rel Holds (call answers list c).2 (seqCall (granted answers list c) t c).2
  kept : (∃ code, (call answers list c).1 = .failed code) ∨ (call answers list c).1 = .stopped →
    (call answers list c).2 = list

theorem Refines.of_eq {answers : Answers} {list list' : Option OrbitList} {t t' : Option TypedSeq}
    {c : Call} {o : Seen} (hcall : call answers list c = (o, list'))
    (hseq : seqCall (granted answers list c) t c = (o, t')) (hholds : Option.Rel Holds list' t')
    (hkept : (∃ code, o = .failed code) ∨ o = .stopped → list' = list) :
    Refines answers list t c where
  seen := by rw [hcall, hseq]
  holds := by
    rw [hcall, hseq]
    exact hholds
  kept := by
    rw [hcall]
    exact hkept

/-- A call that changes nothing. -/
theorem Refines.unchanged {answers : Answers} {list : Option OrbitList} {t : Option TypedSeq}
    {c : Call} {o : Seen} (h : Option.Rel Holds list t) (hcall : call answers list c = (o, list))
    (hseq : seqCall (granted answers list c) t c = (o, t)) : Refines answers list t c :=
  .of_eq hcall hseq h fun _ => rfl

/-- A call that is carried out. -/
theorem Refines.done {answers : Answers} {list : Option OrbitList} {t : Option TypedSeq} {c : Call}
    (l' : OrbitList) (t' : TypedSeq) (hcall : call answers list c = (.done, some l'))
    (hseq : seqCall (granted answers list c) t c = (.done, some t')) (hholds : Holds l' t') :
    Refines answers list t c :=
  .of_eq hcall hseq (.some hholds) (by rintro (⟨code, h⟩ | h) <;> cases h)

/-- A list is made from arguments that are as they should be, and memory for them. -/
theorem orbitListCreateTyped_spec (answers : Answers) (region global : Nat) (elemSize cap : Int)
    (kind : Int32) :
    (¬ ((region ≠ 0 ∨ global ≠ 0) ∧ elemSize = 8 ∧ 0 ≤ cap ∧ cap ≤ 2305843009213693951) →
        ∃ m, orbitListCreateTyped answers region global elemSize cap kind = .error (.err 7 m)) ∧
      ((region ≠ 0 ∨ global ≠ 0) ∧ elemSize = 8 ∧ 0 ≤ cap ∧ cap ≤ 2305843009213693951 →
        (newRoom answers cap = false →
            ∃ m, orbitListCreateTyped answers region global elemSize cap kind =
              .error (.err 2 m)) ∧
          (newRoom answers cap = true →
            ∃ l, orbitListCreateTyped answers region global elemSize cap kind = .ok l ∧
              Holds l ⟨kind, []⟩)) := by
  rw [orbitListCreateTyped, newRoom]
  dsimp only
  have ha : (if region = 0 then global else region) = 0 ↔ ¬ (region ≠ 0 ∨ global ≠ 0) := by
    split_ifs with h0 <;> simp [h0]
  generalize (if region = 0 then global else region) = a at ha ⊢
  have hcap : (0 ≤ cap ∧ cap ≤ 2305843009213693951 ↔
      ¬ ((if cap = 0 then 8 else cap) < 0 ∨ (if cap = 0 then 8 else cap) > 2305843009213693951)) ∧
      (if cap = 0 then (8 : Int) else cap) ≠ 0 := by
    split_ifs <;> omega
  generalize (if cap = 0 then (8 : Int) else cap) = cap' at hcap ⊢
  obtain ⟨hcap, hne⟩ := hcap
  rw [hcap]
  refine ⟨fun hargs => ?_, fun ⟨hregion, hsize, hrange⟩ => ⟨fun hroom => ?_, fun hroom => ?_⟩⟩
  · by_cases hbad : a = 0 ∨ elemSize = 0
    · rw [if_pos hbad]
      exact ⟨_, rfl⟩
    · by_cases hsize : elemSize = 8
      · rw [if_neg hbad, if_neg (not_not.mpr hsize), if_pos]
        · exact ⟨_, rfl⟩
        · rw [not_or, ha, not_not] at hbad
          exact not_not.mp fun hrange => hargs ⟨hbad.1, hsize, hrange⟩
      · rw [if_neg hbad, if_pos hsize]
        exact ⟨_, rfl⟩
  · rw [if_neg (by rw [ha]; omega), if_neg (by omega), if_neg (by omega), hsize]
    cases hheader : answers.header with
    | false => exact ⟨_, rfl⟩
    | true =>
      rw [hheader, Bool.true_and, Option.isSome_eq_false_iff, Option.isNone_iff_eq_none] at hroom
      rw [hroom]
      exact ⟨_, rfl⟩
  · rw [Bool.and_eq_true, Option.isSome_iff_exists] at hroom
    obtain ⟨hheader, g, hblock⟩ := hroom
    rw [if_neg (by rw [ha]; omega), if_neg (by omega), if_neg (by omega), hsize, hheader, hblock]
    refine ⟨_, rfl, rfl, rfl, Nat.zero_le _, ?_, ?_, ?_, rfl, g.addr_ne, ?_⟩
    · change (g.block _).words.length = cap'.toNat
      rw [Grant.block, List.length_map, List.length_range]
      omega
    · change 0 < cap'.toNat
      omega
    · change 8 * cap'.toNat < 2 ^ 64
      omega
    · change a ≠ 0
      rw [ne_eq, ha]
      exact not_not.mpr hregion

theorem refines_create (answers : Answers) {list : Option OrbitList} {t : Option TypedSeq}
    (h : Option.Rel Holds list t) (region global : Nat) (elemSize cap : Int) (kind : Int32) :
    Refines answers list t (.createTyped region global elemSize cap kind) := by
  obtain ⟨hbad, hgood⟩ := orbitListCreateTyped_spec answers region global elemSize cap kind
  by_cases hargs : (region ≠ 0 ∨ global ≠ 0) ∧ elemSize = 8 ∧ 0 ≤ cap ∧ cap ≤ 2305843009213693951
  · cases hroom : newRoom answers cap with
    | false =>
      obtain ⟨m, hm⟩ := (hgood hargs).1 hroom
      refine .unchanged h (o := .failed 2) ?_ ?_
      · rw [call, hm]
        rfl
      · rw [seqCall, newSeq, if_pos hargs, granted, hroom]
        rfl
    | true =>
      obtain ⟨l, hl, hholds⟩ := (hgood hargs).2 hroom
      refine .done l ⟨kind, []⟩ ?_ ?_ hholds
      · rw [call, hl]
        rfl
      · rw [seqCall, newSeq, if_pos hargs, granted, hroom]
        rfl
  · obtain ⟨m, hm⟩ := hbad hargs
    refine .unchanged h (o := .failed 7) ?_ ?_
    · rw [call, hm]
      rfl
    · rw [seqCall, newSeq, if_neg hargs]

/-- A typed push onto a full list without a kind that cannot grow: the kind is adopted, and stays. -/
def Slips (answers : Answers) (list : Option OrbitList) : Call → Prop
  | .pushTyped _ => ∃ l ∈ list, l.elemKind = 0 ∧ l.room answers = false
  | _ => False

theorem refines_push {answers : Answers} {l : OrbitList} {t : TypedSeq} (h : Holds l t)
    (w : UInt64) : Refines answers (some l) (some t) (.push (some w)) := by
  obtain ⟨hgranted, hrefused⟩ := orbitListPush_spec answers h w
  have hadmits : t.Admits 0 := .inl rfl
  cases hroom : l.room answers with
  | false =>
    obtain ⟨m, hpush⟩ := hrefused hroom
    refine .unchanged (.some h) (o := .failed 2) ?_ ?_
    · rw [call, hpush]
      rfl
    · rw [seqCall, onSeq, TypedSeq.push, if_pos hadmits, granted, Option.all_some, hroom]
      rfl
  | true =>
    obtain ⟨l', hpush, hl'⟩ := hgranted hroom
    refine .done l' { t with elems := t.elems ++ [(0, w)] } ?_ ?_ hl'
    · rw [call, hpush]
      rfl
    · rw [seqCall, onSeq, TypedSeq.push, if_pos hadmits, granted, Option.all_some, hroom,
        TypedSeq.adopt_untyped]
      rfl

theorem refines_pushTyped {answers : Answers} {l : OrbitList} {t : TypedSeq} (h : Holds l t)
    (v : Value) : Refines answers (some l) (some t) (.pushTyped v) ↔
      ¬ Slips answers (some l) (.pushTyped v) := by
  obtain ⟨hstop, hgranted, hrefused⟩ := pushWord_spec answers h v.kind_ne v.word
  by_cases hadmits : t.Admits v.kind
  · cases hroom : l.room answers with
    | false =>
      obtain ⟨-, m, hpush⟩ := hrefused hadmits hroom
      have hcall : call answers (some l) (.pushTyped v) =
          (.failed 2, some { l with elemKind := v.kind }) := by
        rw [call, pushTyped_eq, hpush]
        rfl
      constructor
      · rintro hrefines ⟨_, ⟨⟩, hkind, -⟩
        have hkept := hrefines.kept (.inl ⟨2, by rw [hcall]⟩)
        rw [hcall, Option.some.injEq] at hkept
        exact v.kind_ne ((congrArg OrbitList.elemKind hkept).trans hkind)
      · intro hslip
        have hkind : l.elemKind = v.kind := by
          rcases hadmits with hadmits | hadmits | hadmits
          · exact absurd hadmits v.kind_ne
          · exact absurd ⟨l, rfl, h.kind.trans hadmits, hroom⟩ hslip
          · exact h.kind.trans hadmits
        refine .unchanged (.some h) (o := .failed 2) ?_ ?_
        · rw [hcall, ← hkind]
        · rw [seqCall, onSeq, TypedSeq.push, if_pos hadmits, granted, Option.all_some, hroom]
          rfl
    | true =>
      obtain ⟨l', hpush, hl'⟩ := hgranted hadmits hroom
      refine iff_of_true (.done l' ⟨v.kind, t.elems ++ [(v.kind, v.word)]⟩ ?_ ?_ hl') ?_
      · rw [call, pushTyped_eq, hpush]
        rfl
      · rw [seqCall, onSeq, TypedSeq.push, if_pos hadmits, granted, Option.all_some, hroom,
          TypedSeq.adopt_of_admits hadmits v.kind_ne]
        rfl
      · rintro ⟨_, ⟨⟩, -, hno⟩
        rw [hroom] at hno
        cases hno
  · refine iff_of_true (.unchanged (.some h) (o := .stopped) ?_ ?_) ?_
    · rw [call, pushTyped_eq, hstop hadmits]
      rfl
    · rw [seqCall, onSeq, TypedSeq.push, if_neg hadmits]
      rfl
    · rintro ⟨_, ⟨⟩, hkind, -⟩
      exact hadmits (.inr (.inl (h.kind.symm.trans hkind)))

theorem refines_set {answers : Answers} {l : OrbitList} {t : TypedSeq} (h : Holds l t) (index : Int)
    (w : UInt64) : Refines answers (some l) (some t) (.set index (some w)) := by
  have hlen := h.length
  by_cases hrange : 0 ≤ index ∧ index < l.len
  · refine .done (l.write index.toNat w) { t with elems := t.elems.set index.toNat (0, w) } ?_ ?_
      (h.write index.toNat 0 w)
    · rw [call, orbitListSet, if_neg (by omega)]
      rfl
    · rw [seqCall, onSeq, TypedSeq.set, hlen, if_pos hrange, if_pos (.inl rfl),
        TypedSeq.adopt_untyped]
      rfl
  · refine .unchanged (.some h) (o := .failed 3) ?_ ?_
    · rw [call, orbitListSet, if_pos (by omega)]
      rfl
    · rw [seqCall, onSeq, TypedSeq.set, hlen, if_neg hrange]
      rfl

theorem refines_setTyped {answers : Answers} {l : OrbitList} {t : TypedSeq} (h : Holds l t)
    (index : Int) (v : Value) : Refines answers (some l) (some t) (.setTyped index v) := by
  obtain ⟨hout, hstop, hgood⟩ := setWord_spec h v.kind_ne index v.word
  have hlen := h.length
  by_cases hrange : 0 ≤ index ∧ index < l.len
  · by_cases hadmits : t.Admits v.kind
    · obtain ⟨l', hset, hl'⟩ := hgood hrange hadmits
      refine .done l' ⟨v.kind, t.elems.set index.toNat (v.kind, v.word)⟩ ?_ ?_ hl'
      · rw [call, setTyped_eq, hset]
        rfl
      · rw [seqCall, onSeq, TypedSeq.set, hlen, if_pos hrange, if_pos hadmits,
          TypedSeq.adopt_of_admits hadmits v.kind_ne]
        rfl
    · refine .unchanged (.some h) (o := .stopped) ?_ ?_
      · rw [call, setTyped_eq, hstop hrange hadmits]
        rfl
      · rw [seqCall, onSeq, TypedSeq.set, hlen, if_pos hrange, if_neg hadmits]
        rfl
  · obtain ⟨m, hset⟩ := hout hrange
    refine .unchanged (.some h) (o := .failed 3) ?_ ?_
    · rw [call, setTyped_eq, hset]
      rfl
    · rw [seqCall, onSeq, TypedSeq.set, hlen, if_neg hrange]
      rfl

theorem refines_pop {answers : Answers} {l : OrbitList} {t : TypedSeq} (h : Holds l t) :
    Refines answers (some l) (some t) .pop := by
  have hlen := h.length
  by_cases hempty : l.len = 0
  · refine .unchanged (.some h) (o := .failed 3) ?_ ?_
    · rw [call, orbitListPop, if_pos hempty]
      rfl
    · rw [hempty] at hlen
      rw [seqCall, onSeq, TypedSeq.pop, List.length_eq_zero_iff.mp hlen]
      rfl
  · have hlast : ∃ e, t.elems.getLast? = some e := by
      rw [← Option.isSome_iff_exists, List.getLast?_isSome]
      rintro hnil
      rw [hnil] at hlen
      exact hempty hlen.symm
    obtain ⟨e, he⟩ := hlast
    have hat : t.elems[l.len - 1]? = some e := by
      rw [← he, List.getLast?_eq_getElem?, hlen]
    have hshorter : Option.Rel Holds (some { l with len := l.len - 1 })
        (some { t with elems := t.elems.take (l.len - 1) }) :=
      .some (h.shorter (Nat.sub_le _ _))
    refine .of_eq (o := .word e.2) ?_ ?_ hshorter ?_
    · rw [call, orbitListPop, if_neg hempty, ← h.load hat]
      rfl
    · rw [seqCall, onSeq, TypedSeq.pop, he, List.dropLast_eq_take, hlen]
      rfl
    · rintro (⟨code, h⟩ | h) <;> cases h

theorem refines_get {answers : Answers} {l : OrbitList} {t : TypedSeq} (h : Holds l t)
    (index : Nat) : Refines answers (some l) (some t) (.get index) := by
  have hlen := h.length
  by_cases hlt : index < l.len
  · have hsome : ∃ e, t.elems[index]? = some e :=
      ⟨_, List.getElem?_eq_getElem (by rw [hlen]; exact hlt)⟩
    obtain ⟨e, he⟩ := hsome
    refine .unchanged (.some h) (o := .word e.2) ?_ ?_
    · rw [call, orbitListGet, if_neg h.data, if_neg (Nat.not_le.mpr hlt), ← h.load he]
      rfl
    · rw [seqCall, onSeq, TypedSeq.get, he]
      rfl
  · have hnone : t.elems[index]? = none := List.getElem?_eq_none (by omega)
    refine .unchanged (.some h) (o := .failed 3) ?_ ?_
    · rw [call, orbitListGet, if_neg h.data, if_pos (Nat.not_lt.mp hlt)]
      rfl
    · rw [seqCall, onSeq, TypedSeq.get, hnone]
      rfl

/-- **Which calls go as on a typed sequence.** -/
theorem refines_iff {answers : Answers} {list : Option OrbitList} {t : Option TypedSeq}
    (h : Option.Rel Holds list t) (c : Call) : Refines answers list t c ↔ ¬ Slips answers list c := by
  have hnone : ∀ {o : Seen}, call answers none c = (o, none) →
      seqCall (granted answers none c) none c = (o, none) → Refines answers none none c :=
    fun hcall hseq => .unchanged .none hcall hseq
  cases c with
  | create region global elemSize cap =>
    obtain ⟨hseen, hholds, hkept⟩ :=
      refines_create answers h region global elemSize cap 0
    exact iff_of_true ⟨hseen, hholds, hkept⟩ id
  | createTyped region global elemSize cap kind =>
    exact iff_of_true (refines_create answers h region global elemSize cap kind) id
  | push elem =>
    refine iff_of_true ?_ id
    cases h with
    | none => cases elem <;> exact hnone rfl rfl
    | some h =>
      cases elem with
      | none => exact .unchanged (.some h) rfl rfl
      | some w => exact refines_push h w
  | pushTyped v =>
    cases h with
    | none =>
      refine iff_of_true (hnone (o := .failed 1) ?_ rfl) nofun
      rw [call, pushTyped_eq]
      rfl
    | some h => exact refines_pushTyped h v
  | set index elem =>
    refine iff_of_true ?_ id
    cases h with
    | none => cases elem <;> exact hnone rfl rfl
    | some h =>
      cases elem with
      | none => exact .unchanged (.some h) rfl rfl
      | some w => exact refines_set h index w
  | setTyped index v =>
    refine iff_of_true ?_ id
    cases h with
    | none =>
      refine hnone (o := .failed 1) ?_ rfl
      rw [call, setTyped_eq]
      rfl
    | some h => exact refines_setTyped h index v
  | pop =>
    refine iff_of_true ?_ id
    cases h with
    | none => exact hnone rfl rfl
    | some h => exact refines_pop h
  | get index =>
    refine iff_of_true ?_ id
    cases h with
    | none => exact hnone rfl rfl
    | some h => exact refines_get h index
  | len =>
    refine iff_of_true ?_ id
    cases h with
    | none => exact hnone rfl rfl
    | some h => exact .unchanged (.some h) rfl (by rw [seqCall, Option.map_some, h.length]; rfl)
  | clear =>
    refine iff_of_true ?_ id
    cases h with
    | none => exact .of_eq (o := .done) rfl rfl .none fun _ => rfl
    | some h => exact .done _ _ rfl rfl (h.shorter (Nat.zero_le _))

/-! ## Runs -/

/-- A call that is correct: as on a typed sequence, within the capacity, and typed writes of one
kind. -/
structure Correct (answers : Answers) (list : Option OrbitList) (t : Option TypedSeq) (c : Call) :
    Prop extends Refines answers list t c where
  bounded : ∀ l ∈ (call answers list c).2, l.len ≤ l.capacity
  agrees : ∀ x ∈ (seqCall (granted answers list c) t c).2, x.Agrees

/-- An untyped write into a list with a kind, or a typed write into one without a kind that keeps
another word. -/
def Mixes (answers : Answers) (list : Option OrbitList) : Call → Prop
  | .push (some _) => ∃ l ∈ list, l.elemKind ≠ 0 ∧ l.room answers = true
  | .set index (some _) => ∃ l ∈ list, l.elemKind ≠ 0 ∧ 0 ≤ index ∧ index < l.len
  | .pushTyped _ => ∃ l ∈ list, l.elemKind = 0 ∧ l.len ≠ 0
  | .setTyped index _ => ∃ l ∈ list, l.elemKind = 0 ∧ (0 ≤ index ∧ index < l.len) ∧ l.len ≠ 1
  | _ => False

/-- Something holds of every call of a run, up to one that stops the process. -/
def Along (P : Answers → Option OrbitList → Option TypedSeq → Call → Prop) :
    Option OrbitList → Option TypedSeq → List (Answers × Call) → Prop
  | _, _, [] => True
  | list, t, (answers, c) :: run =>
    P answers list t c ∧ ((call answers list c).1 ≠ .stopped →
      Along P (call answers list c).2 (seqCall (granted answers list c) t c).2 run)

theorem along_iff {P Q : Answers → Option OrbitList → Option TypedSeq → Call → Prop}
    {I : Option OrbitList → Option TypedSeq → Prop}
    (hstep : ∀ answers list t c, I list t → (P answers list t c ↔ Q answers list t c))
    (hkeep : ∀ answers list t c, I list t → Q answers list t c →
      I (call answers list c).2 (seqCall (granted answers list c) t c).2)
    {list : Option OrbitList} {t : Option TypedSeq} (h : I list t) (run : List (Answers × Call)) :
    Along P list t run ↔ Along Q list t run := by
  induction run generalizing list t with
  | nil => exact Iff.rfl
  | cons first run ih =>
    obtain ⟨answers, c⟩ := first
    rw [Along, Along, hstep answers list t c h]
    refine and_congr_right fun hq => imp_congr_right fun _ => ?_
    exact ih (hkeep answers list t c h hq)

theorem correct_iff {answers : Answers} {list : Option OrbitList} {t : Option TypedSeq}
    (h : Option.Rel Holds list t) (hag : ∀ x ∈ t, x.Agrees) (c : Call) :
    Correct answers list t c ↔ ¬ Slips answers list c := by
  refine ⟨fun hc => (refines_iff h c).mp hc.toRefines, fun hslip => ?_⟩
  have hrefines := (refines_iff h c).mpr hslip
  refine ⟨hrefines, ?_, agrees_seqCall hag c⟩
  intro l hl
  have hholds := hrefines.holds
  rw [Option.mem_def] at hl
  rw [hl] at hholds
  generalize (seqCall (granted answers list c) t c).2 = t' at hholds
  cases hholds with
  | some hholds => exact hholds.len_le

/-! ## One kind -/

theorem TypedSeq.Agrees.untyped {t : TypedSeq} (h : t.Agrees) (h0 : t.kind = 0)
    {e : Int32 × UInt64} (he : e ∈ t.elems) : e.1 = 0 := by
  rcases h e he with h | h
  · exact h
  · exact h.trans h0

theorem TypedSeq.oneKind_push_untyped {t : TypedSeq} (hone : t.OneKind) (memory : Bool)
    (w : UInt64) : (t.push memory 0 w).2.OneKind ↔ ¬ (t.kind ≠ 0 ∧ memory = true) := by
  rw [TypedSeq.push, if_pos (.inl rfl), TypedSeq.adopt_untyped]
  cases memory with
  | false => exact iff_of_true hone (by simp)
  | true =>
    rw [if_pos rfl, and_iff_left rfl]
    constructor
    · intro h hkind
      exact hkind (h hkind (0, w) (List.mem_append_right _ List.mem_cons_self)).symm
    · exact fun hkind hne => absurd hne hkind

theorem TypedSeq.oneKind_push {t : TypedSeq} (hag : t.Agrees) (hone : t.OneKind) {kind : Int32}
    (hkind : kind ≠ 0) (memory : Bool) (w : UInt64) :
    (t.push memory kind w).2.OneKind ↔ ¬ (memory = true ∧ t.kind = 0 ∧ t.elems.length ≠ 0) := by
  rw [TypedSeq.push]
  by_cases hadmits : t.Admits kind
  · rw [if_pos hadmits, TypedSeq.adopt_of_admits hadmits hkind]
    cases memory with
    | false => exact iff_of_true hone (by simp)
    | true =>
      rw [if_pos rfl, and_iff_right rfl]
      constructor
      · rintro h ⟨h0, hne⟩
        obtain ⟨e, he⟩ := List.exists_mem_of_length_pos (Nat.pos_of_ne_zero hne)
        exact hkind ((h hkind e (List.mem_append_left _ he)).symm.trans (hag.untyped h0 he))
      · intro h _ e he
        rcases List.mem_append.mp he with he | he
        · have hpos := List.length_pos_of_mem he
          have hne : t.kind ≠ 0 := fun h0 => h ⟨h0, Nat.ne_of_gt hpos⟩
          exact (hone hne e he).trans (hadmits.kind_eq hkind hne)
        · rw [List.mem_singleton.mp he]
  · rw [if_neg hadmits]
    exact iff_of_true hone fun h => hadmits (.inr (.inl h.2.1))

theorem TypedSeq.oneKind_set_untyped {t : TypedSeq} (hone : t.OneKind) (index : Int)
    (w : UInt64) : (t.set index 0 w).2.OneKind ↔
      ¬ (t.kind ≠ 0 ∧ 0 ≤ index ∧ index < t.elems.length) := by
  rw [TypedSeq.set]
  by_cases hrange : 0 ≤ index ∧ index < t.elems.length
  · rw [if_pos hrange, if_pos (.inl rfl), TypedSeq.adopt_untyped, and_iff_left hrange]
    constructor
    · intro h hkind
      have hmem : (0, w) ∈ t.elems.set index.toNat (0, w) := List.mem_set (by omega) _
      exact hkind (h hkind (0, w) hmem).symm
    · exact fun hkind hne => absurd hne hkind
  · rw [if_neg hrange]
    exact iff_of_true hone fun h => hrange h.2

theorem TypedSeq.oneKind_set {t : TypedSeq} (hag : t.Agrees) (hone : t.OneKind) {kind : Int32}
    (hkind : kind ≠ 0) (index : Int) (w : UInt64) : (t.set index kind w).2.OneKind ↔
      ¬ (t.kind = 0 ∧ (0 ≤ index ∧ index < t.elems.length) ∧ t.elems.length ≠ 1) := by
  rw [TypedSeq.set]
  by_cases hrange : 0 ≤ index ∧ index < t.elems.length
  · rw [if_pos hrange, and_iff_right hrange]
    by_cases hadmits : t.Admits kind
    · rw [if_pos hadmits, TypedSeq.adopt_of_admits hadmits hkind]
      constructor
      · rintro h ⟨h0, hne⟩
        -- a word that was there stays beside the new one
        obtain ⟨other, hother, hlt⟩ : ∃ other, index.toNat ≠ other ∧ other < t.elems.length :=
          ⟨if index = 0 then 1 else 0, by split_ifs <;> omega, by split_ifs <;> omega⟩
        have hmem : t.elems[other] ∈ t.elems.set index.toNat (kind, w) := by
          refine List.mem_of_getElem? (i := other) ?_
          rw [List.getElem?_set_ne hother, List.getElem?_eq_getElem hlt]
        exact hkind ((h hkind _ hmem).symm.trans (hag.untyped h0 (List.getElem_mem hlt)))
      · intro h _ e he
        by_cases h0 : t.kind = 0
        · have hone : t.elems.length = 1 := not_not.mp fun hne => h ⟨h0, hne⟩
          obtain ⟨x, hx⟩ := List.length_eq_one_iff.mp hone
          rw [hx, show index.toNat = 0 by omega] at he
          rw [List.mem_singleton.mp he]
        · rcases List.mem_or_eq_of_mem_set he with he | rfl
          · exact (hone h0 e he).trans (hadmits.kind_eq hkind h0)
          · rfl
    · rw [if_neg hadmits]
      exact iff_of_true hone fun h => hadmits (.inr (.inl h.1))
  · rw [if_neg hrange]
    exact iff_of_true hone fun h => hrange h.2.1

theorem oneKind_iff {answers : Answers} {list : Option OrbitList} {t : Option TypedSeq}
    (h : Option.Rel Holds list t) (hag : ∀ x ∈ t, x.Agrees) (hone : ∀ x ∈ t, x.OneKind) {c : Call}
    (hslip : ¬ Slips answers list c) :
    (∀ x ∈ (seqCall (granted answers list c) t c).2, x.OneKind) ↔ ¬ Mixes answers list c := by
  have hnew : ∀ {memory region global elemSize cap kind},
      ∀ x ∈ (newSeq memory region global elemSize cap kind t).2, x.OneKind := by
    intro memory region global elemSize cap kind x hx
    rw [newSeq] at hx
    split_ifs at hx
    · cases hx
      exact fun _ => nofun
    · exact hone x hx
    · exact hone x hx
  cases h with
  | none =>
    cases c with
    | create => exact iff_of_true hnew id
    | createTyped => exact iff_of_true hnew id
    | push elem => cases elem <;> exact iff_of_true nofun nofun
    | pushTyped v => exact iff_of_true nofun nofun
    | set index elem => cases elem <;> exact iff_of_true nofun nofun
    | setTyped index v => exact iff_of_true nofun nofun
    | pop => exact iff_of_true nofun id
    | get index => exact iff_of_true nofun id
    | len => exact iff_of_true nofun id
    | clear => exact iff_of_true nofun id
  | @some l t h =>
    have hag := hag t rfl
    have hone' := hone t rfl
    have hlen := h.length
    have hkind := h.kind
    have hsome : ∀ {x : TypedSeq}, (∀ y ∈ some x, y.OneKind) ↔ x.OneKind :=
      ⟨fun h => h _ rfl, fun h y hy => by cases hy; exact h⟩
    have hlist : ∀ {Q : OrbitList → Prop}, (∃ x ∈ some l, Q x) ↔ Q l :=
      ⟨fun ⟨x, hx, hq⟩ => by cases hx; exact hq, fun hq => ⟨l, rfl, hq⟩⟩
    cases c with
    | create => exact iff_of_true hnew id
    | createTyped => exact iff_of_true hnew id
    | push elem =>
      cases elem with
      | none => exact iff_of_true hone id
      | some w =>
        rw [Mixes, hlist, hkind]
        exact hsome.trans (TypedSeq.oneKind_push_untyped hone' (l.room answers) w)
    | pushTyped v =>
      rw [Mixes, hlist, hkind, ← hlen]
      refine hsome.trans
        ((TypedSeq.oneKind_push hag hone' v.kind_ne (l.room answers) v.word).trans ?_)
      refine not_congr ⟨And.right, fun hmix => ⟨?_, hmix⟩⟩
      -- else the call would slip
      by_contra hroom
      exact hslip ⟨l, rfl, hkind.trans hmix.1, Bool.eq_false_iff.mpr hroom⟩
    | set index elem =>
      cases elem with
      | none => exact iff_of_true hone id
      | some w =>
        rw [Mixes, hlist, hkind, ← hlen]
        exact hsome.trans (TypedSeq.oneKind_set_untyped hone' index w)
    | setTyped index v =>
      rw [Mixes, hlist, hkind, ← hlen]
      exact hsome.trans (TypedSeq.oneKind_set hag hone' v.kind_ne index v.word)
    | pop =>
      refine iff_of_true (hsome.mpr ?_) id
      change t.pop.2.OneKind
      rw [TypedSeq.pop]
      split
      · exact hone'
      · exact fun hne e he => hone' hne e (List.dropLast_subset _ he)
    | get index => exact iff_of_true hone id
    | len => exact iff_of_true hone id
    | clear => exact iff_of_true (hsome.mpr fun _ => nofun) id

/-- A correct call after which all words are of one kind. -/
structure CorrectOneKind (answers : Answers) (list : Option OrbitList) (t : Option TypedSeq)
    (c : Call) : Prop extends Correct answers list t c where
  oneKind : ∀ x ∈ (seqCall (granted answers list c) t c).2, x.OneKind

/-- What every call of a run finds. -/
structure Ready (list : Option OrbitList) (t : Option TypedSeq) : Prop where
  holds : Option.Rel Holds list t
  agrees : ∀ x ∈ t, x.Agrees

theorem Ready.call {answers : Answers} {list : Option OrbitList} {t : Option TypedSeq} {c : Call}
    (h : Ready list t) (hslip : ¬ Slips answers list c) :
    Ready (call answers list c).2 (seqCall (granted answers list c) t c).2 :=
  ⟨((refines_iff h.holds c).mpr hslip).holds, agrees_seqCall h.agrees c⟩

/-- **A list is a typed sequence in a run, with any answers of the arena, if and only if** no typed
push meets a full list without a kind that cannot grow. All its words have one kind besides if and
only if untyped and typed writes do not mix. -/
theorem lists_refine_iff (run : List (Answers × Call)) :
    (Along Correct none none run ↔
        Along (fun answers list _ c => ¬ Slips answers list c) none none run) ∧
      (Along CorrectOneKind none none run ↔
        Along (fun answers list _ c => ¬ Slips answers list c ∧ ¬ Mixes answers list c)
          none none run) := by
  have hstart : Ready none none := ⟨.none, nofun⟩
  constructor
  · refine along_iff (I := Ready) ?_ ?_ hstart run
    · exact fun answers list t c h => correct_iff h.holds h.agrees c
    · exact fun answers list t c h hslip => h.call hslip
  · refine along_iff (I := fun list t => Ready list t ∧ ∀ x ∈ t, x.OneKind) ?_ ?_
      ⟨hstart, nofun⟩ run
    · rintro answers list t c ⟨h, hone⟩
      constructor
      · intro hc
        have hslip := (correct_iff h.holds h.agrees c).mp hc.toCorrect
        exact ⟨hslip, (oneKind_iff h.holds h.agrees hone hslip).mp hc.oneKind⟩
      · rintro ⟨hslip, hmix⟩
        exact ⟨(correct_iff h.holds h.agrees c).mpr hslip,
          (oneKind_iff h.holds h.agrees hone hslip).mpr hmix⟩
    · rintro answers list t c ⟨h, hone⟩ ⟨hslip, hmix⟩
      exact ⟨h.call hslip, (oneKind_iff h.holds h.agrees hone hslip).mpr hmix⟩

/-- An arena that gives one slot at most. -/
def oneSlot : Answers where
  header := true
  block bytes := if bytes ≤ 8 then some ⟨4096, by decide, fun _ => 0⟩ else none

/-- An untyped push fills a list of one slot, and a push of a string finds no memory: it returns an
error, and the list is one of strings from then on. -/
theorem lists_refine_refused : ¬ ∀ run, Along Correct none none run := by
  intro h
  obtain ⟨-, hrest⟩ := h [(oneSlot, .create 1 0 8 1), (oneSlot, .push (some 7)),
    (oneSlot, .pushTyped (.string 9))]
  obtain ⟨-, hrest⟩ := hrest (by decide)
  obtain ⟨hcorrect, -⟩ := hrest (by decide)
  exact absurd (hcorrect.kept (.inl ⟨2, by decide⟩)) (by decide)

end Runtime.Lists
