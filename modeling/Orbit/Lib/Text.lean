import Mathlib.Data.List.Basic

/-!
# Strings by position

Slices and searches of a string as a list of characters. Positions past the end are clamped, as
the C runtime clamps them.
-/

namespace Lib.Text

/-- The characters of a literal. Irreducible, so that a text built from literals is not unfolded
character by character; closed texts are compared by `decide`. -/
@[irreducible] def chars (s : String) : List Char := s.toList

def len (s : String) : Nat := s.toList.length

/-- The characters from position `i` up to position `j`. -/
def slice (s : String) (i j : Nat) : String := String.ofList ((s.toList.take j).drop i)

def startsWith (s pre : String) : Bool := pre.toList.isPrefixOf s.toList

def endsWith (s suf : String) : Bool := suf.toList.isSuffixOf s.toList

/-- The first position at which `sub` occurs. -/
def indexOf (s sub : String) : Option Nat := go s.toList 0
where
  go : List Char → Nat → Option Nat
    | [], n => if sub.toList.isEmpty then some n else none
    | c :: cs, n => if sub.toList.isPrefixOf (c :: cs) then some n else go cs (n + 1)

/-- `s` cut at every `sep`. -/
def splitOn (sep : Char) (s : String) : List String := (go s.toList []).map String.ofList
where
  go : List Char → List Char → List (List Char)
    | [], cur => [cur.reverse]
    | c :: cs, cur => if c = sep then cur.reverse :: go cs [] else go cs (c :: cur)

theorem splitOn_go_nil (sep : Char) (cur : List Char) :
    splitOn.go sep [] cur = [cur.reverse] := rfl

theorem splitOn_go_cons (sep c : Char) (cs cur : List Char) :
    splitOn.go sep (c :: cs) cur =
      if c = sep then cur.reverse :: splitOn.go sep cs [] else splitOn.go sep cs (c :: cur) := rfl

/-- A number in decimal. -/
def intToString (n : Int) : List Char :=
  if n < 0 then '-' :: Nat.toDigits 10 n.natAbs else Nat.toDigits 10 n.natAbs

end Lib.Text

/-!
# UTF-8

Which sequences of bytes are UTF-8 (RFC 3629), by a machine that reads one byte at a time and holds
how many continuation bytes are owed and the range of the next. A byte is the character of its
code.
-/

namespace Lib.Utf8

inductive Owed where
  | none
  | more (count low high : Nat)
  | bad
  deriving DecidableEq, Repr

def step : Owed → Char → Owed
  | .none, c =>
    if c.toNat < 0x80 then .none
    else if c.toNat < 0xc2 then .bad
    else if c.toNat < 0xe0 then .more 1 0x80 0xbf
    else if c.toNat = 0xe0 then .more 2 0xa0 0xbf
    else if c.toNat = 0xed then .more 2 0x80 0x9f
    else if c.toNat < 0xf0 then .more 2 0x80 0xbf
    else if c.toNat = 0xf0 then .more 3 0x90 0xbf
    else if c.toNat < 0xf4 then .more 3 0x80 0xbf
    else if c.toNat = 0xf4 then .more 3 0x80 0x8f
    else .bad
  | .more n low high, c =>
    if low ≤ c.toNat ∧ c.toNat ≤ high then
      if n ≤ 1 then .none else .more (n - 1) 0x80 0xbf
    else .bad
  | .bad, _ => .bad

def run (p : Owed) (t : List Char) : Owed := t.foldl step p

def Valid (t : List Char) : Prop := run .none t = .none

instance (t : List Char) : Decidable (Valid t) := inferInstanceAs (Decidable (run .none t = .none))

theorem run_append (p : Owed) (s t : List Char) : run p (s ++ t) = run (run p s) t :=
  List.foldl_append

theorem Valid.append {s t : List Char} (hs : Valid s) (ht : Valid t) : Valid (s ++ t) := by
  rw [Valid, run_append, hs]
  exact ht

theorem run_ascii {t : List Char} (h : ∀ c ∈ t, c.toNat < 0x80) : run .none t = .none := by
  induction t with
  | nil => rfl
  | cons c t ih =>
    have hc := h c List.mem_cons_self
    rw [run, List.foldl_cons, step, if_pos hc]
    exact ih fun d hd => h d (List.mem_cons_of_mem c hd)

theorem valid_ascii {t : List Char} (h : ∀ c ∈ t, c.toNat < 0x80) : Valid t := run_ascii h

/-- A continuation byte is never ASCII. -/
def Owed.Ok : Owed → Prop
  | .more _ low _ => 0x80 ≤ low
  | _ => True

theorem Owed.Ok.step {p : Owed} (h : p.Ok) (c : Char) : (Utf8.step p c).Ok := by
  cases p with
  | none =>
    rw [Utf8.step]
    split_ifs <;> simp [Owed.Ok]
  | more n low high =>
    rw [Utf8.step]
    split_ifs <;> simp [Owed.Ok]
  | bad => trivial

theorem run_bad (t : List Char) : run .bad t = .bad := by
  induction t with
  | nil => rfl
  | cons c t ih => exact ih

/-- An ASCII text takes the place of an ASCII character. -/
theorem run_replace {p : Owed} (hp : p.Ok) {c : Char} {t : List Char} (hc : c.toNat < 0x80)
    (ht : ∀ d ∈ t, d.toNat < 0x80) (hne : t ≠ []) : run p t = step p c := by
  cases p with
  | none =>
    rw [run_ascii ht, step, if_pos hc]
  | more n low high =>
    have hp : 0x80 ≤ low := hp
    obtain ⟨d, w, rfl⟩ := List.exists_cons_of_ne_nil hne
    have hd := ht d List.mem_cons_self
    rw [run, List.foldl_cons, step, step, if_neg (by omega), if_neg (by omega)]
    exact run_bad w
  | bad => exact run_bad t

end Lib.Utf8
