import Mathlib.Data.List.Basic

/-!
# Readers of a stream

A reader takes items from the front of a buffer. `drain` takes as many as there are, `feed` does so
after each arrival of a chunk, on what was left and the chunk. A reader whose answers on a prefix
of the stream stand when the rest comes (`Stable`) gives the same items however the stream is cut
(`feed_eq`).
-/

namespace Lib.Stream

/-- What a reader says of a buffer: it needs more, refuses, or took an item and left a rest. -/
inductive Verdict (α β ε : Type) where
  | more
  | stop (e : ε)
  | item (b : β) (rest : List α)
  deriving DecidableEq

variable {α β ε : Type} (parse : List α → Verdict α β ε)

/-- The items taken, and the refusal or what is left. -/
abbrev Result (α β ε : Type) := List β × (ε ⊕ List α)

def Result.after (got : List β) (r : Result α β ε) : Result α β ε := (got ++ r.1, r.2)

def drainN : Nat → List α → Result α β ε
  | 0, s => ([], .inr s)
  | n + 1, s =>
    match parse s with
    | .more => ([], .inr s)
    | .stop e => ([], .inl e)
    | .item b rest => Result.after [b] (drainN n rest)

def drain (s : List α) : Result α β ε := drainN parse (s.length + 1) s

/-- The reader behind a buffer: `s` is what was left before the chunks. -/
def feed : List (List α) → List α → Result α β ε
  | [], s => ([], .inr s)
  | c :: cs, s =>
    match drain parse (s ++ c) with
    | (got, .inl e) => (got, .inl e)
    | (got, .inr rest) => Result.after got (feed cs rest)

/-- An item takes at least one element. -/
def Shrinks : Prop := ∀ s b rest, parse s = .item b rest → rest.length < s.length

/-- What remains of a stream after some items. -/
inductive Reaches : List α → List α → Prop where
  | refl {s} : Reaches s s
  | item {s b rest r} : parse s = .item b rest → Reaches rest r → Reaches s r

/-- The answers on the prefixes of `s` stand on `s`. -/
structure Stable (s : List α) : Prop where
  item : ∀ p t b rest, s = p ++ t → parse p = .item b rest → parse s = .item b (rest ++ t)
  stop : ∀ p t e, s = p ++ t → parse p = .stop e → parse s = .stop e

/-- Every rest of the stream that is reached is stable. -/
def Steady (s : List α) : Prop := ∀ r, Reaches parse s r → Stable parse r

variable {parse}

theorem drainN_succ (n : Nat) (s : List α) :
    drainN parse (n + 1) s =
      match parse s with
      | .more => ([], .inr s)
      | .stop e => ([], .inl e)
      | .item b rest => Result.after [b] (drainN parse n rest) := rfl

theorem drain_eq (s : List α) : drain parse s = drainN parse (s.length + 1) s := rfl

theorem Reaches.next {s r : List α} {b : β} {rest : List α} (h : Reaches parse s r)
    (hs : parse s = .item b rest) : r = s ∨ Reaches parse rest r := by
  cases h with
  | refl => exact .inl rfl
  | item hs' hr =>
    rw [hs'] at hs
    cases hs
    exact .inr hr

theorem Reaches.last {s r : List α} (h : Reaches parse s r) (hs : parse s = .more) : r = s := by
  cases h with
  | refl => rfl
  | item hs' hr =>
    rw [hs'] at hs
    cases hs

theorem Steady.next {s : List α} {b : β} {rest : List α} (h : Steady parse s)
    (hs : parse s = .item b rest) : Steady parse rest := fun r hr => h r (.item hs hr)

theorem drainN_eq (hp : Shrinks parse) {n m : Nat} {s : List α} (hn : s.length < n)
    (hm : s.length < m) : drainN parse n s = drainN parse m s := by
  induction n generalizing m s with
  | zero => exact absurd hn (Nat.not_lt_zero _)
  | succ n ih =>
    obtain ⟨m, rfl⟩ := Nat.exists_eq_succ_of_ne_zero (Nat.ne_zero_of_lt hm)
    rw [drainN_succ, drainN_succ]
    cases hs : parse s with
    | more => rfl
    | stop e => rfl
    | item b rest =>
      have hlt := hp s b rest hs
      have hrest : drainN parse n rest = drainN parse m rest := ih (by omega) (by omega)
      simp only [hrest]

theorem drain_item (hp : Shrinks parse) {s : List α} {b : β} {rest : List α}
    (hs : parse s = .item b rest) : drain parse s = Result.after [b] (drain parse rest) := by
  have hlt := hp s b rest hs
  rw [drain_eq, drainN_succ, hs]
  simp only [drain_eq]
  rw [drainN_eq hp (by omega) (Nat.lt_succ_self _)]

theorem drain_more {s : List α} (hs : parse s = .more) : drain parse s = ([], .inr s) := by
  rw [drain_eq, drainN_succ, hs]

theorem drain_stop {s : List α} {e : ε} (hs : parse s = .stop e) :
    drain parse s = ([], .inl e) := by
  rw [drain_eq, drainN_succ, hs]

theorem after_after (g g' : List β) (r : Result α β ε) :
    Result.after g (Result.after g' r) = Result.after (g ++ g') r := by
  simp only [Result.after, List.append_assoc]

/-- What draining a prefix of the stream gives: the refusal of the stream, or its first items and a
rest that is still waited on. -/
theorem drain_prefix (hp : Shrinks parse) (t : List α) : ∀ (n : Nat) (p : List α), p.length < n →
    Steady parse (p ++ t) →
    (∃ got e, drain parse p = (got, .inl e) ∧ drain parse (p ++ t) = (got, .inl e)) ∨
      ∃ got r, drain parse p = (got, .inr r) ∧ parse r = .more ∧ Steady parse (r ++ t) ∧
        drain parse (p ++ t) = Result.after got (drain parse (r ++ t)) := by
  intro n
  induction n with
  | zero => exact fun p h => absurd h (Nat.not_lt_zero _)
  | succ n ih =>
    intro p hn hsteady
    have hstable := hsteady _ .refl
    cases hs : parse p with
    | more => exact .inr ⟨[], p, drain_more hs, hs, hsteady, rfl⟩
    | stop e => exact .inl ⟨[], e, drain_stop hs, drain_stop (hstable.stop p t e rfl hs)⟩
    | item b rest =>
      have hlt := hp p b rest hs
      have hwhole := hstable.item p t b rest rfl hs
      rcases ih rest (by omega) (hsteady.next hwhole) with
        ⟨got, e, hd, hd'⟩ | ⟨got, r, hd, hr, hst, hd'⟩
      · refine .inl ⟨b :: got, e, ?_, ?_⟩
        · rw [drain_item hp hs, hd]
          rfl
        · rw [drain_item hp hwhole, hd']
          rfl
      · refine .inr ⟨b :: got, r, ?_, hr, hst, ?_⟩
        · rw [drain_item hp hs, hd]
          rfl
        · rw [drain_item hp hwhole, hd', after_after]
          rfl

theorem feed_drain (hp : Shrinks parse) (cs : List (List α)) {s : List α}
    (hs : parse s = .more) (hst : Steady parse (s ++ cs.flatten)) :
    feed parse cs s = drain parse (s ++ cs.flatten) := by
  induction cs generalizing s with
  | nil =>
    rw [List.flatten_nil, List.append_nil, drain_more hs]
    rfl
  | cons c cs ih =>
    rw [List.flatten_cons, ← List.append_assoc] at hst ⊢
    rcases drain_prefix hp cs.flatten _ (s ++ c) (Nat.lt_succ_self _) hst with
      ⟨got, e, hd, hd'⟩ | ⟨got, r, hd, hr, hst', hd'⟩
    · rw [feed, hd, hd']
    · rw [feed, hd, hd']
      simp only [ih hr hst']

/-- **The cuts do not matter** to a reader that is stable along the stream. -/
theorem feed_eq (hp : Shrinks parse) (hnil : parse [] = .more) (cs : List (List α))
    (hst : Steady parse cs.flatten) : feed parse cs [] = feed parse [cs.flatten] [] := by
  have hone : [cs.flatten].flatten = cs.flatten := List.append_nil _
  rw [feed_drain hp cs hnil hst, feed_drain hp [cs.flatten] hnil (hone.symm ▸ hst), hone]

end Lib.Stream
