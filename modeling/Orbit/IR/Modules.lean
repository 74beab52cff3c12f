import Orbit.IR.Simulate

/-!
# Simulating one module by another

`ModuleSame.of_activations`: a relation between activations of two modules, kept by every
instruction, lifts to the stacks of whole runs. An activation of the first module may make a call
that the second has replaced: it runs, unobserved, until that call has returned, while the second
executes one instruction that does nothing.
-/

namespace IR

open Lib (Match Quiet ObsEq)

section
variable {W : Type} (rt : Runtime W)

/-- Whatever function is run by its name, on whatever arguments in whatever world, the second
module behaves as the first. -/
def ModuleSame (m m' : IRModule) : Prop :=
  ∀ name f, findFunction m name = some f → ∃ f', findFunction m' name = some f' ∧
    ∀ (vars : String → Val) (args : List Val) (w : W),
      ObsEq (mstep rt m vars) MState.trace (mstep rt m' vars) MState.trace
        (MState.start rt f vars args w) (MState.start rt f' vars args w)

theorem ModuleSame.refl (m : IRModule) : ModuleSame rt m m :=
  fun _ f hf => ⟨f, hf, fun _ _ _ => ObsEq.refl _ _ _⟩

variable {rt}

theorem ModuleSame.trans {m m' m'' : IRModule} (h : ModuleSame rt m m')
    (h' : ModuleSame rt m' m'') : ModuleSame rt m m'' := by
  intro name f hf
  obtain ⟨f', hf', hobs⟩ := h name f hf
  obtain ⟨f'', hf'', hobs'⟩ := h' name f' hf'
  exact ⟨f'', hf'', fun vars args w => (hobs vars args w).trans (hobs' vars args w)⟩

end

section
variable {W : Type} (rt : Runtime W) (A : Activation → Activation → Prop)

/-- Activations that are related whatever their calls return. -/
def Waits (a a' : Activation) : Prop :=
  ∀ v, A { a with frame := a.frame.resume rt a.func v }
    { a' with frame := a'.frame.resume rt a'.func v }

/-- Two frames whose call has the same name in the paths of what it makes. -/
structure SameSite (fr fr' : Frame) : Prop where
  ip : fr'.ip = fr.ip
  count : fr'.calls fr'.ip = fr.calls fr.ip
  path : fr'.locals.path = fr.locals.path

/-- States whose stacks are related. -/
inductive StackRel : MState W → MState W → Prop
  | run {a a' : Activation} {rest rest' : List Activation} (w : W) (tr : List Event) : A a a' →
      List.Forall₂ (Waits rt A) rest rest' → StackRel (.run a rest w tr) (.run a' rest' w tr)
  | hung (tr : List Event) : StackRel (.hung tr) (.hung tr)

/-- What related activations can do in world `w`. -/
inductive ActivationMatch (m : IRModule) (vars : String → Val) (a a' : Activation) (w : W) : Prop
  | both : LResRel rt a.func a'.func (fun fr fr' => A ⟨a.func, fr⟩ ⟨a'.func, fr'⟩)
        (lstep rt a.func a.frame w) (lstep rt a'.func a'.frame w) →
      (∀ callee args fr fr', lstep rt a.func a.frame w = .call callee args fr →
        lstep rt a'.func a'.frame w = .call callee args fr' → SameSite fr fr') →
      ActivationMatch m vars a a' w
  | inner {fr fr' : Frame} : (∀ rest tr, ∃ u, Quiet (mstep rt m vars) MState.trace
        (.run a rest w tr) u ∧ mstep rt m vars u = .next (.run ⟨a.func, fr⟩ rest w tr)) →
      lstep rt a'.func a'.frame w = .next fr' w [] → A ⟨a.func, fr⟩ ⟨a'.func, fr'⟩ →
      ActivationMatch m vars a a' w

/-- Every call finds related functions, or leaves both modules. -/
def CalleesRel (m m' : IRModule) (vars : String → Val) : Prop :=
  ∀ name, (findFunction m name = none ∧ findFunction m' name = none) ∨
    ∃ f f', findFunction m name = some f ∧ findFunction m' name = some f' ∧
      ∀ path args, A ⟨f, Frame.enter rt f vars path args⟩ ⟨f', Frame.enter rt f' vars path args⟩

end

section
variable {W : Type} {rt : Runtime W} {A : Activation → Activation → Prop} {m m' : IRModule}
  {vars : String → Val}

theorem CalleesRel.resolve (h : CalleesRel rt A m m' vars) (callee : Callee) :
    (resolveCallee m callee = none ∧ resolveCallee m' callee = none) ∨
      ∃ f f', resolveCallee m callee = some f ∧ resolveCallee m' callee = some f' ∧
        ∀ path args,
          A ⟨f, Frame.enter rt f vars path args⟩ ⟨f', Frame.enter rt f' vars path args⟩ := by
  cases callee with
  | name s => exact h s
  | value v => exact .inl ⟨rfl, rfl⟩

/-- Activations that match run in states that match. -/
theorem ActivationMatch.lift {a a' : Activation} {w : W} (h : ActivationMatch rt A m vars a a' w)
    (hc : CalleesRel rt A m m' vars) {rest rest' : List Activation}
    (hrest : List.Forall₂ (Waits rt A) rest rest') (tr : List Event) :
    Match (mstep rt m vars) MState.trace (mstep rt m' vars) MState.trace (StackRel rt A)
      (fun _ _ => 0) (.run a rest w tr) (.run a' rest' w tr) := by
  cases h with
  | both h hsite =>
    generalize hl : lstep rt a.func a.frame w = l at h hsite
    generalize hl' : lstep rt a'.func a'.frame w = l' at h hsite
    cases h with
    | @next fr fr' w' evs hA =>
      exact .one (t := .run { a with frame := fr } rest w' (tr ++ evs))
        (q := .run { a' with frame := fr' } rest' w' (tr ++ evs))
        (by simp only [mstep, hl]) (by simp only [mstep, hl']) (.run _ _ hA hrest)
    | @call callee args fr fr' hA =>
      obtain ⟨hip, hcount, hpath⟩ := hsite callee args fr fr' rfl rfl
      rcases hc.resolve callee with ⟨hn, hn'⟩ | ⟨f, f', hf, hf', hent⟩
      · cases hrt : rt.call callee args w with
        | ret v w' =>
          exact .one
            (t := .run { a with frame := fr.resume rt a.func v } rest w' (tr ++ [.call callee args]))
            (q := .run { a' with frame := fr'.resume rt a'.func v } rest' w'
              (tr ++ [.call callee args]))
            (by simp only [mstep, hl, hn, hrt]) (by simp only [mstep, hl', hn', hrt])
            (.run _ _ (hA v) hrest)
        | fail e =>
          exact .halt (o := .trapped (.runtime e) w (tr ++ [.call callee args]))
            (by simp only [mstep, hl, hn, hrt]) (by simp only [mstep, hl', hn', hrt])
        | hang =>
          exact .one (t := .hung (tr ++ [.call callee args]))
            (q := .hung (tr ++ [.call callee args]))
            (by simp only [mstep, hl, hn, hrt]) (by simp only [mstep, hl', hn', hrt]) (.hung _)
      · have hpath' : (fr'.ip, fr'.calls fr'.ip) :: fr'.locals.path =
            (fr.ip, fr.calls fr.ip) :: fr.locals.path := by rw [hcount, hip, hpath]
        refine .one
          (t := .run ⟨f, Frame.enter rt f vars ((fr.ip, fr.calls fr.ip) :: fr.locals.path) args⟩
            ({ a with frame := fr } :: rest) w tr)
          (q := .run ⟨f', Frame.enter rt f' vars ((fr.ip, fr.calls fr.ip) :: fr.locals.path) args⟩
            ({ a' with frame := fr' } :: rest') w tr)
          (by simp only [mstep, hl, hf]) (by simp only [mstep, hl', hf', hpath']) ?_
        exact .run _ _ (hent _ _) (.cons hA hrest)
    | ret v =>
      cases hrest with
      | nil =>
        exact .halt (o := .returned v w tr) (by simp only [mstep, hl, mreturn])
          (by simp only [mstep, hl', mreturn])
      | @cons b b' rest rest' hb hrest =>
        exact .one (t := .run { b with frame := b.frame.resume rt b.func v } rest w tr)
          (q := .run { b' with frame := b'.frame.resume rt b'.func v } rest' w tr)
          (by simp only [mstep, hl, mreturn]) (by simp only [mstep, hl', mreturn])
          (.run _ _ (hb v) hrest)
    | trap t =>
      exact .halt (o := .trapped t w tr) (by simp only [mstep, hl]) (by simp only [mstep, hl'])
    | stuck => exact .halt (o := .stuck) (by simp only [mstep, hl]) (by simp only [mstep, hl'])
  | @inner fr fr' hq hl' hA =>
    obtain ⟨u, hu, hstep⟩ := hq rest tr
    exact .both hu (.refl _) hstep (q := .run { a' with frame := fr' } rest' w tr)
      (by simp only [mstep, hl', List.append_nil]) (.run _ _ hA hrest)

/-- **The simulation rule for modules.** -/
theorem ModuleSame.of_activations
    (hA : ∀ vars a a' (w : W), A a a' → ActivationMatch rt A m vars a a' w)
    (hc : ∀ vars, CalleesRel rt A m m' vars) : ModuleSame rt m m' := by
  intro name f hf
  rcases hc (fun _ => .word 0) name with ⟨hn, -⟩ | ⟨g, g', hg, hg', -⟩
  · rw [hn] at hf; cases hf
  · refine ⟨g', hg', fun vars args w => ?_⟩
    obtain ⟨f', hf', hent⟩ : ∃ f', findFunction m' name = some f' ∧ ∀ path args,
        A ⟨f, Frame.enter rt f vars path args⟩ ⟨f', Frame.enter rt f' vars path args⟩ := by
      rcases hc vars name with ⟨hn, -⟩ | ⟨g, g', hg, hg', hent⟩
      · rw [hn] at hf; cases hf
      · rw [hf] at hg; cases hg; exact ⟨g', hg', hent⟩
    rw [hg'] at hf'
    cases hf'
    refine ObsEq.of_sim (R := StackRel rt A) (d := fun _ _ => 0) ?_ ?_ (.run w [] (hent [] args) .nil)
    · rintro _ _ (⟨w, tr, ha, hrest⟩ | tr)
      · exact (hA vars _ _ w ha).lift (hc vars) hrest tr
      · exact .one rfl rfl (.hung tr)
    · rintro _ _ (⟨w, tr, -, -⟩ | tr) <;> rfl

/-- A frame that calls stays where it is. -/
theorem lstep_call {f : IRFunction} {fr fr' : Frame} {w : W} {callee : Callee} {args : List Val}
    (h : lstep rt f fr w = .call callee args fr') :
    fr'.ip = fr.ip ∧ fr'.calls = fr.calls ∧ fr'.locals.path = fr.locals.path := by
  cases hi : f.instructions[fr.ip]? with
  | none => simp [lstep, hi] at h
  | some i =>
    rw [lstep_at hi] at h
    cases ha : fr.actOf rt f i w with
    | call callee' args' l =>
      rw [ha] at h
      cases h
      refine ⟨rfl, rfl, ?_⟩
      have hop := (act_call ha).1
      simp only [Frame.actOf, act, hop, callAct] at ha
      cases ha
      rfl
    | step v l w' evs => rw [ha] at h; cases h
    | goto n =>
      rw [ha] at h
      simp only [Frame.apply] at h
      split at h <;> cases h
    | ret v => rw [ha] at h; cases v <;> cases h
    | trap t => rw [ha] at h; cases h

/-- Frames that call from the same place. -/
theorem SameSite.of_lstep {f f' : IRFunction} {fr fr' t t' : Frame} {w : W} {callee : Callee}
    {args : List Val} (h : lstep rt f fr w = .call callee args t)
    (h' : lstep rt f' fr' w = .call callee args t') (hs : SameSite fr fr') : SameSite t t' := by
  obtain ⟨hip, hcalls, hpath⟩ := lstep_call h
  obtain ⟨hip', hcalls', hpath'⟩ := lstep_call h'
  refine ⟨by rw [hip, hip', hs.ip], ?_, by rw [hpath, hpath', hs.path]⟩
  rw [hip, hip', hcalls, hcalls', hs.count]

/-- An activation matches itself. -/
theorem ActivationMatch.of_eq {a : Activation} {w : W} (hrefl : ∀ fr, A ⟨a.func, fr⟩ ⟨a.func, fr⟩) :
    ActivationMatch rt A m vars a a w := by
  refine .both ?_ fun callee args fr fr' h h' => ?_
  · generalize lstep rt a.func a.frame w = l
    cases l with
    | next fr w' evs => exact .next (hrefl fr)
    | call callee args fr => exact .call fun v => hrefl _
    | ret v => exact .ret v
    | trap t => exact .trap t
    | stuck => exact .stuck
  · rw [h] at h'
    cases h'
    exact ⟨rfl, rfl, rfl⟩

end

end IR
