import Orbit.IR.Reach

/-!
# Simulating one function by another

`SameBehaviour.of_frames`: a relation between the frames of two functions, kept when both execute
an instruction that does the same for the outside, or when one of them executes an instruction
that does nothing for the outside and a measure goes down.
-/

namespace IR

section
variable {W : Type} (rt : Runtime W) (f g : IRFunction) (R : Frame → Frame → Prop)

/-- Two local steps that look the same from outside and lead to related frames. -/
inductive LResRel : LRes W → LRes W → Prop
  | next {fr fr' : Frame} {w : W} {evs : List Event} : R fr fr' →
      LResRel (.next fr w evs) (.next fr' w evs)
  | call {callee : Callee} {args : List Val} {fr fr' : Frame} :
      (∀ v, R (fr.resume rt f v) (fr'.resume rt g v)) →
      LResRel (.call callee args fr) (.call callee args fr')
  | ret (v : Val) : LResRel (.ret v) (.ret v)
  | trap (t : Trap) : LResRel (.trap t) (.trap t)
  | stuck : LResRel .stuck .stuck

/-- What related frames can do in world `w`. -/
inductive FrameMatch (d : Frame → Frame → Nat) (fr fr' : Frame) (w : W) : Prop
  | both : LResRel rt f g R (lstep rt f fr w) (lstep rt g fr' w) → FrameMatch d fr fr' w
  | left {t : Frame} : lstep rt f fr w = .next t w [] → R t fr' → d t fr' < d fr fr' →
      FrameMatch d fr fr' w
  | right {t : Frame} : lstep rt g fr' w = .next t w [] → R fr t → d fr t < d fr fr' →
      FrameMatch d fr fr' w

end

section
variable {W : Type} {rt : Runtime W} {f g : IRFunction} {R : Frame → Frame → Prop}

theorem LResRel.mono {R' : Frame → Frame → Prop} {l l' : LRes W} (h : LResRel rt f g R l l')
    (hR : ∀ fr fr', R fr fr' → R' fr fr') : LResRel rt f g R' l l' := by
  cases h with
  | next h => exact .next (hR _ _ h)
  | call h => exact .call fun v => hR _ _ (h v)
  | ret v => exact .ret v
  | trap t => exact .trap t
  | stuck => exact .stuck

/-- Two acts that do the same for the outside and leave related locals. -/
inductive ActRel (L : Locals → Locals → Prop) : Act W → Act W → Prop
  | step (v : Option Val) {l l' : Locals} (w : W) (evs : List Event) : L l l' →
      ActRel L (.step v l w evs) (.step v l' w evs)
  | goto (n : Int) : ActRel L (.goto n) (.goto n)
  | call (callee : Callee) (args : List Val) {l l' : Locals} : L l l' →
      ActRel L (.call callee args l) (.call callee args l')
  | ret (v : Option Val) : ActRel L (.ret v) (.ret v)
  | trap (t : Trap) : ActRel L (.trap t) (.trap t)

theorem ActRel.refl {L : Locals → Locals → Prop} (h : ∀ l, L l l) (a : Act W) : ActRel L a a := by
  cases a <;> constructor <;> exact h _

/-- How often calls have run, after an instruction that is none and after one that is. -/
def CallsNext (fr fr' : Frame) (c c' : Nat → Nat) : Prop :=
  (c = fr.calls ∧ c' = fr'.calls) ∨
    (c = update fr.calls fr.ip (fr.calls fr.ip + 1) ∧
      c' = update fr'.calls fr'.ip (fr'.calls fr'.ip + 1))

/-- The act goes on with `v` for the destination; a call always answers. -/
def Act.Gives (a : Act W) (v : Option Val) : Prop :=
  (∃ l w evs, a = .step v l w evs) ∨ (∃ callee args l, a = .call callee args l) ∧ v.isSome

/-- Two frames that execute instructions with one destination, with related acts. -/
theorem LResRel.apply {L : Locals → Locals → Prop} {i i' : IRInstruction} {fr fr' : Frame} {w : W}
    {a a' : Act W} (ha : ActRel L a a') (hi : f.instructions[fr.ip]? = some i)
    (hi' : g.instructions[fr'.ip]? = some i') (hd : i'.dest = i.dest)
    (hret : g.returnType = f.returnType)
    (hstep : ∀ v l l' c c', a.Gives v → L l l' → CallsNext fr fr' c c' →
      R ⟨fr.ip + 1, writeReg rt f i.dest v fr.regs, l, c⟩
        ⟨fr'.ip + 1, writeReg rt g i.dest v fr'.regs, l', c'⟩)
    (hgoto : ∀ n, a = .goto n → findLabel g.instructions n = findLabel f.instructions n ∧
      ∀ k, findLabel f.instructions n = some k → R { fr with ip := k } { fr' with ip := k }) :
    LResRel rt f g R (fr.apply rt f i w a) (fr'.apply rt g i' w a') := by
  cases ha with
  | step v w' evs hl =>
    simp only [Frame.apply, hd]
    exact .next (hstep v _ _ _ _ (.inl ⟨_, _, _, rfl⟩) hl (.inl ⟨rfl, rfl⟩))
  | goto n =>
    obtain ⟨he, hk⟩ := hgoto n rfl
    simp only [Frame.apply, he]
    cases hn : findLabel f.instructions n with
    | none => exact .stuck
    | some k => exact .next (hk k hn)
  | call callee args hl =>
    refine .call fun v => ?_
    simp only [Frame.resume, hi, hi', hd]
    exact hstep (some v) _ _ _ _ (.inr ⟨⟨_, _, _, rfl⟩, rfl⟩) hl (.inr ⟨rfl, rfl⟩)
  | ret v =>
    cases v with
    | none => simp only [Frame.apply, retDefault, hret]; exact .ret _
    | some v => simp only [Frame.apply, hret]; exact .ret _
  | trap t => exact .trap t

/-- The relation between states that a relation between frames gives. -/
inductive StateRel (R : Frame → Frame → Prop) : FState W → FState W → Prop
  | run {fr fr' : Frame} {w : W} {tr : List Event} : R fr fr' →
      StateRel R (.run fr w tr) (.run fr' w tr)
  | hung (tr : List Event) : StateRel R (.hung tr) (.hung tr)

/-- The measure on frames, on states. -/
def stateMeasure (d : Frame → Frame → Nat) : FState W → FState W → Nat
  | .run fr _ _, .run fr' _ _ => d fr fr'
  | _, _ => 0

open Lib (Match)

/-- Frames that match run in states that match. -/
theorem FrameMatch.lift {d : Frame → Frame → Nat} {fr fr' : Frame} {w : W}
    (h : FrameMatch rt f g R d fr fr' w) (tr : List Event) :
    Match (fstep rt f) FState.trace (fstep rt g) FState.trace (StateRel R) (stateMeasure d)
      (.run fr w tr)
      (.run fr' w tr) := by
  cases h with
  | both h =>
    generalize hl : lstep rt f fr w = l at h
    generalize hl' : lstep rt g fr' w = l' at h
    cases h with
    | @next t t' w' evs ht =>
      exact .one (t := .run t w' (tr ++ evs)) (q := .run t' w' (tr ++ evs))
        (by simp [fstep, hl]) (by simp [fstep, hl']) (.run ht)
    | @call callee args t t' ht =>
      cases hc : rt.call callee args w with
      | ret v w' =>
        exact .one (t := .run (t.resume rt f v) w' (tr ++ [.call callee args]))
          (q := .run (t'.resume rt g v) w' (tr ++ [.call callee args]))
          (by simp [fstep, hl, hc]) (by simp [fstep, hl', hc]) (.run (ht v))
      | fail e =>
        exact .halt (o := .trapped (.runtime e) w (tr ++ [.call callee args]))
          (by simp [fstep, hl, hc]) (by simp [fstep, hl', hc])
      | hang =>
        exact .one (t := .hung (tr ++ [.call callee args]))
          (q := .hung (tr ++ [.call callee args]))
          (by simp [fstep, hl, hc]) (by simp [fstep, hl', hc]) (.hung _)
    | ret v => exact .halt (o := .returned v w tr) (by simp [fstep, hl]) (by simp [fstep, hl'])
    | trap t => exact .halt (o := .trapped t w tr) (by simp [fstep, hl]) (by simp [fstep, hl'])
    | stuck => exact .halt (o := .stuck) (by simp [fstep, hl]) (by simp [fstep, hl'])
  | @left t h ht hd => exact .left (t := .run t w tr) (by simp [fstep, h]) (.run ht) hd
  | @right t h ht hd => exact .right (q := .run t w tr) (by simp [fstep, h]) (.run ht) hd

/-- **The simulation rule for functions.** -/
theorem SameBehaviour.of_frames {d : Frame → Frame → Nat}
    (h : ∀ fr fr' w, R fr fr' → FrameMatch rt f g R d fr fr' w)
    (h0 : ∀ fr, fr.ip = 0 → R fr fr) : SameBehaviour rt f g := by
  intro fr w hip
  refine Lib.ObsEq.of_sim (R := StateRel R) (d := stateMeasure d) ?_ ?_ (.run (h0 fr hip))
  · rintro _ _ (⟨hr⟩ | tr)
    · exact (h _ _ _ hr).lift _
    · exact .one rfl rfl (.hung tr)
  · rintro _ _ (⟨_⟩ | tr) <;> rfl

end

end IR
