import Mathlib.Logic.Function.Basic
import Mathlib.Order.Basic
import Mathlib.Data.Option.Basic

/-!
# Programs that ask their surroundings

A program is a tree of questions, `Prog`: each node asks an operation and goes on with the answer.
What an answer can be, and what the operation does to the world, is a relation `E` given from
outside, so one program has many runs. `Holds` is the weakest precondition over such a relation,
with a side condition on each question asked: it composes along `bind` (`Holds.bind`), holds of every
run of the program alone (`Holds.runs`), and is kept by each of its steps (`Holds.step`), which is
what an interleaving with other programs needs.
-/

namespace Lib

variable {Op : Type} {Res : Op → Type} {α β : Type}

inductive Prog (Op : Type) (Res : Op → Type) (α : Type) : Type where
  | ret (a : α)
  | ask (o : Op) (k : Res o → Prog Op Res α)

namespace Prog

def bind : Prog Op Res α → (α → Prog Op Res β) → Prog Op Res β
  | .ret a, f => f a
  | .ask o k, f => .ask o fun r => (k r).bind f

instance : Monad (Prog Op Res) where
  pure := .ret
  bind := bind

/-- Ask one question. -/
def call (o : Op) : Prog Op Res (Res o) := .ask o .ret

@[simp] theorem pure_eq (a : α) : (pure a : Prog Op Res α) = .ret a := rfl

@[simp] theorem bind_eq (c : Prog Op Res α) (f : α → Prog Op Res β) : c >>= f = c.bind f := rfl

@[simp] theorem ret_bind (a : α) (f : α → Prog Op Res β) : (ret a).bind f = f a := rfl

@[simp] theorem call_bind (o : Op) (f : Res o → Prog Op Res β) :
    (call o).bind f = .ask o f := rfl

/-! ## Runs -/

section
variable {W : Type}

/-- A run of a program to its end, in a world that answers along `E`. -/
inductive Runs (E : W → (o : Op) → Res o → W → Prop) : W → Prog Op Res α → W → α → Prop where
  | ret (w : W) (a : α) : Runs E w (.ret a) w a
  | ask {w w' w'' : W} {o : Op} {r : Res o} {k : Res o → Prog Op Res α} {a : α} :
      E w o r w' → Runs E w' (k r) w'' a → Runs E w (.ask o k) w'' a

/-- Each question asked is allowed where it is asked, and the result is as `Q` says. -/
def Holds (allow : W → Op → Prop) (E : W → (o : Op) → Res o → W → Prop) (Q : α → W → Prop) :
    Prog Op Res α → W → Prop
  | .ret a, w => Q a w
  | .ask o k, w => allow w o ∧ ∀ r w', E w o r w' → Holds allow E Q (k r) w'

variable {allow : W → Op → Prop} {E : W → (o : Op) → Res o → W → Prop} {Q : α → W → Prop}

@[simp] theorem holds_ret {a : α} {w : W} : Holds allow E Q (.ret a) w ↔ Q a w := Iff.rfl

@[simp] theorem holds_ask {o : Op} {k : Res o → Prog Op Res α} {w : W} :
    Holds allow E Q (.ask o k) w ↔ allow w o ∧ ∀ r w', E w o r w' → Holds allow E Q (k r) w' :=
  Iff.rfl

theorem Holds.mono {c : Prog Op Res α} {w : W} {Q' : α → W → Prop} (h : Holds allow E Q c w)
    (hq : ∀ a w, Q a w → Q' a w) : Holds allow E Q' c w := by
  induction c generalizing w with
  | ret a => exact hq a w h
  | ask o k ih => exact ⟨h.1, fun r w' he => ih r (h.2 r w' he)⟩

/-- A program is followed by what its result continues with. -/
theorem Holds.bind {c : Prog Op Res α} {f : α → Prog Op Res β} {w : W} {R : β → W → Prop}
    (h : Holds allow E Q c w) (hf : ∀ a w, Q a w → Holds allow E R (f a) w) :
    Holds allow E R (c.bind f) w := by
  induction c generalizing w with
  | ret a => exact hf a w h
  | ask o k ih => exact ⟨h.1, fun r w' he => ih r (h.2 r w' he)⟩

/-- The result of every run is as the postcondition says. -/
theorem Holds.runs {c : Prog Op Res α} {w w' : W} {a : α} (h : Holds allow E Q c w)
    (hr : Runs E w c w' a) : Q a w' := by
  induction hr with
  | ret w a => exact h
  | ask he _ ih => exact ih (h.2 _ _ he)

/-- What every answer keeps is kept by every run. -/
theorem Runs.keeps {γ : Type} {f : W → γ} {c : Prog Op Res α} {w w' : W} {a : α}
    (hE : ∀ w o r w', E w o r w' → f w' = f w) (h : Runs E w c w' a) : f w' = f w := by
  induction h with
  | ret w a => rfl
  | ask he _ ih => exact ih.trans (hE _ _ _ _ he)

/-- What holds of a program holds of what is left of it after a step. -/
theorem Holds.step {o : Op} {k : Res o → Prog Op Res α} {w w' : W} {r : Res o}
    (h : Holds allow E Q (.ask o k) w) (he : E w o r w') : Holds allow E Q (k r) w' := h.2 r w' he

/-- Run a program in a world that has one answer for each question. -/
def exec {S : Type} (f : S → (o : Op) → Res o × S) : Prog Op Res α → S → α × S
  | .ret a, s => (a, s)
  | .ask o k, s => exec f (k (f s o).1) (f s o).2

/-- The answers of `f`, read in the world `g s`, are answers of `E`. -/
theorem runs_exec {S : Type} {f : S → (o : Op) → Res o × S} {g : S → W}
    (h : ∀ s o, E (g s) o (f s o).1 (g (f s o).2)) (c : Prog Op Res α) (s : S) :
    Runs E (g s) c (g (exec f c s).2) (exec f c s).1 := by
  induction c generalizing s with
  | ret a => exact .ret _ _
  | ask o k ih => exact .ask (h s o) (ih _ _)

end

/-! ## Interleavings -/

section Pool
variable {W ι : Type} [DecidableEq ι]

/-- A question of one of the programs of a pool, with its answer. -/
structure Event (ι : Type) (Op : Type) (Res : Op → Type) where
  who : ι
  op : Op
  res : Res op

/-- The programs of a pool take turns, one question at a time. The trace lists the questions. -/
inductive Interleave (E : ι → W → (o : Op) → Res o → W → Prop) :
    W → (ι → Prog Op Res α) → List (Event ι Op Res) → W → (ι → Prog Op Res α) → Prop where
  | nil (w : W) (p : ι → Prog Op Res α) : Interleave E w p [] w p
  | cons {w w' w'' : W} {p p'' : ι → Prog Op Res α} {i : ι} {o : Op} {r : Res o}
      {k : Res o → Prog Op Res α} {tr : List (Event ι Op Res)} :
      p i = .ask o k → E i w o r w' → Interleave E w' (Function.update p i (k r)) tr w'' p'' →
      Interleave E w p (⟨i, o, r⟩ :: tr) w'' p''

variable {E : ι → W → (o : Op) → Res o → W → Prop}

theorem Interleave.split {w w'' : W} {p p'' : ι → Prog Op Res α}
    {tr tr' : List (Event ι Op Res)} (h : Interleave E w p (tr ++ tr') w'' p'') :
    ∃ w' p', Interleave E w p tr w' p' ∧ Interleave E w' p' tr' w'' p'' := by
  induction tr generalizing w p with
  | nil => exact ⟨w, p, .nil w p, h⟩
  | cons e tr ih =>
    cases h with
    | cons hp he hrest =>
      obtain ⟨w', p', h1, h2⟩ := ih hrest
      exact ⟨w', p', .cons hp he h1, h2⟩

/-- An invariant that every turn keeps, while what it collects grows, holds after every
interleaving. -/
theorem Interleave.invariant {G : Type} [Preorder G] {I : G → W → (ι → Prog Op Res α) → Prop}
    (hstep : ∀ g w p i o r k w', I g w p → p i = .ask o k → E i w o r w' →
      ∃ g', g ≤ g' ∧ I g' w' (Function.update p i (k r)))
    {g : G} {w w' : W} {p p' : ι → Prog Op Res α} {tr : List (Event ι Op Res)}
    (h : Interleave E w p tr w' p') (hI : I g w p) : ∃ g', g ≤ g' ∧ I g' w' p' := by
  induction h generalizing g with
  | nil w p => exact ⟨g, le_rfl, hI⟩
  | cons hp he _ ih =>
    obtain ⟨g₁, hle, hI₁⟩ := hstep _ _ _ _ _ _ _ _ hI hp he
    obtain ⟨g₂, hle', hI₂⟩ := ih hI₁
    exact ⟨g₂, hle.trans hle', hI₂⟩

/-- Run a pool along a schedule in a world that has one answer for each question, as long as the
questions pass `ok`. A program that has ended is passed over. -/
def execPool {S : Type} (ok : ι → S → Op → Bool) (f : ι → S → (o : Op) → Res o × S) :
    List ι → (ι → Prog Op Res α) → S →
      Option (List (Event ι Op Res) × S × (ι → Prog Op Res α))
  | [], p, s => some ([], s, p)
  | i :: is, p, s =>
    match p i with
    | .ret _ => execPool ok f is p s
    | .ask o k =>
      if ok i s o then
        (execPool ok f is (Function.update p i (k (f i s o).1)) (f i s o).2).map
          fun x => (⟨i, o, (f i s o).1⟩ :: x.1, x.2)
      else none

theorem interleave_execPool {S : Type} {ok : ι → S → Op → Bool}
    {f : ι → S → (o : Op) → Res o × S} {g : S → W}
    (h : ∀ i s o, ok i s o = true → E i (g s) o (f i s o).1 (g (f i s o).2)) {is : List ι}
    {p p' : ι → Prog Op Res α} {s s' : S} {tr : List (Event ι Op Res)}
    (hx : execPool ok f is p s = some (tr, s', p')) : Interleave E (g s) p tr (g s') p' := by
  induction is generalizing p s tr with
  | nil =>
    simp only [execPool, Option.some.injEq, Prod.mk.injEq] at hx
    obtain ⟨rfl, rfl, rfl⟩ := hx
    exact .nil _ _
  | cons i is ih =>
    cases hp : p i with
    | ret a =>
      simp only [execPool, hp] at hx
      exact ih hx
    | ask o k =>
      simp only [execPool, hp, Option.ite_none_right_eq_some, Option.map_eq_some_iff] at hx
      obtain ⟨hok, ⟨tr', s₁, p₁⟩, hrest, heq⟩ := hx
      simp only [Prod.mk.injEq] at heq
      obtain ⟨rfl, rfl, rfl⟩ := heq
      exact .cons hp (h i s o hok) (ih hrest)

end Pool

end Prog

end Lib

/-!
# Programs on a state that may give up

A program takes a state to a result and a state, or gives up (`Partial`): it ran out of the calls or
the rounds that it was allowed. `Ensures` says what holds of every run that does not give up, and
composes along `bind`, along a choice, and around a loop with an invariant (`Ensures.loop`).
-/

namespace Lib

def Partial (S α : Type) : Type := S → Option (α × S)

namespace Partial

variable {S α β σ : Type}

instance : Monad (Partial S) where
  pure a := fun s => some (a, s)
  bind m f := fun s => (m s).bind fun r => f r.1 r.2

def get : Partial S S := fun s => some (s, s)

def modify (f : S → S) : Partial S Unit := fun s => some ((), f s)

/-- What a round of a loop comes to. -/
inductive Next (σ β : Type) where
  | again (next : σ)
  | done (result : β)

/-- The next round starts as `I` says, or the result is as `Q` says. -/
def Next.All (I : σ → Prop) (Q : β → Prop) : Next σ β → Prop
  | .again next => I next
  | .done result => Q result

/-- At most so many rounds. -/
def loop (body : σ → Partial S (Next σ β)) : (rounds : Nat) → σ → Partial S β
  | 0, _ => fun _ => none
  | rounds + 1, x => do
    match ← body x with
    | .again next => loop body rounds next
    | .done result => return result

/-! ## Correctness -/

/-- Every run from a state as `P` says that does not give up ends as `Q` says. -/
def Ensures (P : S → Prop) (m : Partial S α) (Q : α → S → Prop) : Prop :=
  ∀ s, P s → ∀ a s', m s = some (a, s') → Q a s'

variable {P : S → Prop} {m : Partial S α}

theorem Ensures.pure {Q : α → S → Prop} {a : α} (h : ∀ s, P s → Q a s) :
    Ensures P (pure a) Q := by
  rintro s hs a' s' hr
  obtain ⟨rfl, rfl⟩ := Prod.mk.inj (Option.some.inj hr)
  exact h s hs

theorem Ensures.get {Q : S → S → Prop} (h : ∀ s, P s → Q s s) : Ensures P Partial.get Q := by
  rintro s hs a s' hr
  obtain ⟨rfl, rfl⟩ := Prod.mk.inj (Option.some.inj hr)
  exact h s hs

theorem Ensures.modify {f : S → S} {Q : Unit → S → Prop} (h : ∀ s, P s → Q () (f s)) :
    Ensures P (Partial.modify f) Q := by
  rintro s hs a s' hr
  obtain ⟨-, rfl⟩ := Prod.mk.inj (Option.some.inj hr)
  exact h s hs

theorem Ensures.bind {f : α → Partial S β} {R : α → S → Prop} {Q : β → S → Prop}
    (h : Ensures P m R) (hf : ∀ a, Ensures (R a) (f a) Q) : Ensures P (m >>= f) Q := by
  intro s hs b s'' hr
  change (m s).bind (fun r => f r.1 r.2) = some (b, s'') at hr
  obtain ⟨⟨a, s'⟩, hm, hr⟩ := Option.bind_eq_some_iff.mp hr
  exact hf a s' (h s hs a s' hm) b s'' hr

theorem Ensures.ite {c : Prop} [Decidable c] {m' : Partial S α} {Q : α → S → Prop}
    (h : c → Ensures P m Q) (h' : ¬ c → Ensures P m' Q) : Ensures P (if c then m else m') Q := by
  split
  · next hc => exact h hc
  · next hc => exact h' hc

theorem Ensures.mono {P' : S → Prop} {Q Q' : α → S → Prop} (h : Ensures P m Q)
    (hp : ∀ s, P' s → P s) (hq : ∀ a s, Q a s → Q' a s) : Ensures P' m Q' :=
  fun s hs a s' hr => hq a s' (h s (hp s hs) a s' hr)

/-- What every round keeps, and the last one turns into the result, holds of the loop. -/
theorem Ensures.loop {body : σ → Partial S (Next σ β)} {I : σ → S → Prop} {Q : β → S → Prop}
    (h : ∀ x, Ensures (I x) (body x) fun r s => r.All (I · s) (Q · s)) (rounds : Nat) (x : σ) :
    Ensures (I x) (Partial.loop body rounds x) Q := by
  induction rounds generalizing x with
  | zero => exact fun s _ a s' hr => nomatch hr
  | succ rounds ih =>
    refine Ensures.bind (h x) fun r => ?_
    cases r with
    | again next => exact ih next
    | done result => exact Ensures.pure fun _ hs => hs

end Partial

end Lib
