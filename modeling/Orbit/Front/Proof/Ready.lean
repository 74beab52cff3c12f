import Orbit.Front.Declarations
import Orbit.Front.Proof.Lexer

/-!
# Operators are short wherever the parser stands

A token that binds two operands has at most two characters (`nextToken_short`). The current token of
a parser keeps that (`Parser.Ready`), whatever is parsed: each function of the parser keeps it if the
calls that it makes do (`Keeps`), and so do the calls tied together (`keeps_parse`).
-/

namespace Front

open Lib Partial
open Front.Lex (Text TokType Token Placed Lexer)

/-! ## Tokens -/

/-- A token that binds two operands is short. -/
def ShortOperator (t : Token) : Prop := 0 < getPrecedence t.tag → t.text.length ≤ 2

theorem ShortOperator.of_zero {t : Token} (h : getPrecedence t.tag = 0) : ShortOperator t :=
  fun hpos => absurd h (by omega)

theorem precedence_matchKeyword (text : Text) : getPrecedence (Lex.matchKeyword text) = 0 := by
  have hall : ∀ k ∈ Lex.keywords, getPrecedence k.2 = 0 := by decide
  rw [Lex.matchKeyword]
  cases hk : Lex.keywords.find? fun k => Lib.Text.chars k.1 = text with
  | none => rfl
  | some k => exact hall k (List.mem_of_find?_eq_some hk)

theorem precedence_lexString (l : Lexer) : getPrecedence (Lex.lexString l).1 = 0 := by
  rw [Lex.lexString]
  split
  · dsimp only
    split
    · split <;> rfl
    · rfl
  · dsimp only
    split <;> rfl

theorem length_slice_advanceBy (n : Nat) (l : Lexer) :
    (Lex.slice l (Lex.Lexer.advanceBy n l)).length ≤ n := by
  rw [Lex.slice, Lex.rest_advanceBy, List.length_take, List.length_drop]
  omega

theorem nextToken_short (l : Lexer) : ShortOperator (Lex.nextToken l).1 := by
  rw [Lex.nextToken]
  dsimp only
  generalize Lex.skipWhitespaceAndComments l = k
  split
  · exact ShortOperator.of_zero rfl
  · rw [Lex.lexToken]
    split
    · exact ShortOperator.of_zero (precedence_matchKeyword _)
    · split
      · dsimp only
        split <;> exact ShortOperator.of_zero rfl
      · split
        · exact ShortOperator.of_zero (precedence_lexString _)
        · split
          · exact ShortOperator.of_zero rfl
          · have hs := (Lex.lexOperator_short k.peek k.peekNext).2
            have hl := length_slice_advanceBy (Lex.lexOperator k.peek k.peekNext).2 k
            exact fun _ => hl.trans (by omega)

/-! ## What is kept -/

def Parser.Ready (p : Parser) : Prop := ShortOperator p.currentToken.token

theorem ready_advanceParser (p : Parser) : (advanceParser p).Ready := nextToken_short _

theorem ready_recovered {before p : Parser} (h : p.Ready) : (recovered before p).Ready := by
  rw [recovered]
  split
  · exact ready_advanceParser p
  · exact h

theorem ready_recoveredDeclaration {before p : Parser} (h : p.Ready) :
    (recoveredDeclaration before p).Ready := by
  rw [recoveredDeclaration]
  split
  · exact ready_advanceParser p
  · exact h

theorem ready_tooDeep {p : Parser} (h : p.Ready) : (tooDeep p).Ready := by
  rw [tooDeep]
  split <;> exact h

/-- Every run keeps the parser ready. -/
def Keeps {α : Type} (m : P α) : Prop := Ensures Parser.Ready m fun _ => Parser.Ready

/-- Every run keeps the parser ready, and its result is as `Q` says. -/
def Builds {α : Type} (m : P α) (Q : α → Prop) : Prop :=
  Ensures Parser.Ready m fun a p => Q a ∧ p.Ready

section
variable {α β σ : Type}

theorem keeps_pure (a : α) : Keeps (pure a) := Ensures.pure fun _ h => h

theorem keeps_get : Keeps get := Ensures.get fun _ h => h

theorem keeps_modify {f : Parser → Parser} (h : ∀ p, p.Ready → (f p).Ready) : Keeps (modify f) :=
  Ensures.modify h

theorem keeps_bind {m : P α} {f : α → P β} (h : Keeps m) (hf : ∀ a, Keeps (f a)) :
    Keeps (m >>= f) := Ensures.bind h hf

theorem keeps_rounds {body : σ → P (Next σ β)} (h : ∀ x, Keeps (body x)) (x : σ) :
    Keeps (rounds body x) := by
  refine keeps_bind keeps_get fun p => ?_
  refine Ensures.loop (I := fun _ => Parser.Ready) (fun x => (h x).mono (fun _ h => h) ?_) _ x
  intro r s hs
  cases r <;> exact hs

theorem Builds.keeps {m : P α} {Q : α → Prop} (h : Builds m Q) : Keeps m :=
  h.mono (fun _ h => h) fun _ _ h => h.2

theorem Builds.mono {m : P α} {Q R : α → Prop} (h : Builds m Q) (hq : ∀ a, Q a → R a) :
    Builds m R :=
  Ensures.mono h (fun _ h => h) fun a _ h => ⟨hq a h.1, h.2⟩

theorem builds_pure {a : α} {Q : α → Prop} (h : Q a) : Builds (pure a) Q :=
  Ensures.pure fun _ hp => ⟨h, hp⟩

theorem builds_get_bind {f : Parser → P β} {Q : β → Prop}
    (h : ∀ p : Parser, p.Ready → Builds (f p) Q) : Builds (get >>= f) Q := by
  refine Ensures.bind (Ensures.get (Q := fun a p => a = p ∧ p.Ready) fun _ hp => ⟨rfl, hp⟩) ?_
  rintro p _ ⟨rfl, hp⟩
  exact h p hp p hp

/-- What a run leaves behind only keeps the parser ready. -/
theorem builds_keeps_bind {m : P α} {f : α → P β} {Q : β → Prop} (h : Keeps m)
    (hf : ∀ a, Builds (f a) Q) : Builds (m >>= f) Q := Ensures.bind h hf

theorem Builds.bind {m : P α} {f : α → P β} {R : α → Prop} {Q : β → Prop} (h : Builds m R)
    (hf : ∀ a, R a → Builds (f a) Q) : Builds (m >>= f) Q :=
  Ensures.bind h fun a p hp => hf a hp.1 p hp.2

/-- What every round keeps, and the last one turns into the result. -/
theorem builds_rounds {body : σ → P (Next σ β)} {I : σ → Prop} {Q : β → Prop}
    (h : ∀ x, I x → Builds (body x) (Next.All I Q)) {x : σ} (hx : I x) :
    Builds (rounds body x) Q := by
  refine builds_keeps_bind keeps_get fun p => ?_
  have hround : ∀ x, Ensures (fun p => I x ∧ p.Ready) (body x) fun r p =>
      r.All (I · ∧ p.Ready) (Q · ∧ p.Ready) := by
    rintro x p ⟨hx, hp⟩ r p' hr
    have := h x hx p hp r p' hr
    cases r <;> exact this
  exact (Ensures.loop hround _ x).mono (fun _ hp => ⟨hx, hp⟩) fun _ _ h => h

/-- The rule that is found among rules builds what all of them build. -/
theorem builds_find {rules : List (TokType × P α)} {tag : TokType} {rule : TokType × P α}
    {Q : α → Prop} (h : ∀ r ∈ rules, Builds r.2 Q) (hf : rules.find? (·.1 = tag) = some rule) :
    Builds rule.2 Q :=
  h rule (List.mem_of_find?_eq_some hf)

end

attribute [grind ←] keeps_pure keeps_get keeps_bind keeps_rounds builds_pure builds_keeps_bind

/-! ## Tokens of the parser -/

theorem keeps_advance : Keeps advance := keeps_modify fun p _ => ready_advanceParser p

theorem keeps_report (d : ParserDiagnostic) : Keeps (report d) := keeps_modify fun _ h => h

theorem keeps_error (message : String) : Keeps (error message) := keeps_modify fun _ h => h

theorem keeps_recover (before : Parser) : Keeps (recover before) :=
  keeps_modify fun _ => ready_recovered

theorem keeps_splitShift : Keeps (modify splitShift) :=
  keeps_modify fun _ _ _ => show 1 ≤ 2 by omega

attribute [grind ←] keeps_advance keeps_report keeps_error keeps_recover keeps_splitShift

@[grind ←]
theorem keeps_check (tag : TokType) : Keeps (check tag) := by
  unfold check
  grind

@[grind ←]
theorem keeps_advanceUnlessAtEnd : Keeps advanceUnlessAtEnd := by
  unfold advanceUnlessAtEnd
  grind

@[grind ←]
theorem keeps_matchToken (tag : TokType) : Keeps (matchToken tag) := by
  unfold matchToken
  grind

@[grind ←]
theorem keeps_parserUnexpectedToken (kind : String) : Keeps (parserUnexpectedToken kind) := by
  unfold parserUnexpectedToken
  grind

@[grind ←]
theorem keeps_consume (expected : TokType) (message : String) :
    Keeps (consume expected message) := by
  unfold consume
  grind

@[grind ←]
theorem keeps_consumeMemberName (message : String) : Keeps (consumeMemberName message) := by
  unfold consumeMemberName
  grind

@[grind ←]
theorem keeps_consumeTypeCloser : Keeps consumeTypeCloser := by
  unfold consumeTypeCloser
  grind

section
variable {self : Self}

/-! ## Interpolations -/

/-- How the parser answers the questions of an interpolation. -/
def Asked (self : Self) (p : Parser) (o : ParserOp) (r : Answer o) (p' : Parser) : Prop :=
  answer self o p = some (r, p')

theorem runs_interpret {α : Type} {c : ParserM α} {a : α} {p p' : Parser}
    (h : interpret self c p = some (a, p')) : Prog.Runs (Asked self) p c p' a := by
  induction c generalizing p with
  | ret b =>
    obtain ⟨rfl, rfl⟩ := Prod.mk.inj (Option.some.inj h)
    exact .ret p b
  | ask o k ih =>
    change (answer self o p).bind (fun r => interpret self (k r.1) r.2) = some (a, p') at h
    obtain ⟨⟨r, q⟩, hr, hk⟩ := Option.bind_eq_some_iff.mp h
    exact .ask hr (ih r hk)

/-- The program of an interpolation leaves a ready parser ready, with a result as `Q` says. -/
def StaysReady {α : Type} (self : Self) (Q : α → Prop) (c : ParserM α) (p : Parser) : Prop :=
  Prog.Holds (fun _ _ => True) (Asked self) (fun a q => Q a ∧ q.Ready) c p

section
variable {α β : Type} {Q : α → Prop} {p : Parser}

theorem builds_interpret {c : ParserM α} (h : ∀ p, p.Ready → StaysReady self Q c p) :
    Builds (interpret self c) Q :=
  fun p hp _ _ hr => (h p hp).runs (runs_interpret hr)

theorem StaysReady.bind {R : β → Prop} {c : ParserM β} {f : β → ParserM α}
    (h : StaysReady self R c p) (hf : ∀ b q, R b → q.Ready → StaysReady self Q (f b) q) :
    StaysReady self Q (c.bind f) p :=
  Prog.Holds.bind h fun b q hq => hf b q hq.1 hq.2

theorem staysReady_get {c : Parser → ParserM α} (h : StaysReady self Q (c p) p) :
    StaysReady self Q (.ask .get c) p := by
  refine ⟨trivial, fun r q hq => ?_⟩
  obtain ⟨rfl, rfl⟩ := Prod.mk.inj (Option.some.inj hq)
  exact h

theorem staysReady_update {f : Parser → Parser} {c : ParserM α}
    (h : StaysReady self Q c { f p with depth := p.depth }) :
    StaysReady self Q (.ask (.update f) fun _ => c) p := by
  refine ⟨trivial, fun r q hq => ?_⟩
  obtain ⟨-, rfl⟩ := Prod.mk.inj (Option.some.inj hq)
  exact h

theorem staysReady_parseExpression {c : ASTNode → ParserM α} (hself : Keeps (self .expression))
    (hp : p.Ready) (h : ∀ expr q, q.Ready → StaysReady self Q (c expr) q) :
    StaysReady self Q (.ask .parseExpression c) p :=
  ⟨trivial, fun expr q hq => h expr q (hself p hp expr q hq)⟩

end

theorem staysReady_parseHole (hself : Keeps (self .expression)) (tokStart start close : Nat)
    {p : Parser} (hp : p.Ready) :
    StaysReady self (fun _ => True) (parseHole tokStart start close) p := by
  refine staysReady_get (staysReady_update (staysReady_update (staysReady_parseExpression hself
    (ready_advanceParser _) fun expr q _ => staysReady_get (staysReady_update
      (staysReady_update ?_)))))
  change StaysReady self _ (if isAtEnd q then .ret expr else .ask (.update (parserError
    "unexpected text after the expression inside $\x7b")) fun _ => .ret expr) _
  split
  · exact ⟨trivial, hp⟩
  · exact staysReady_update ⟨trivial, hp⟩

theorem staysReady_parseCuts (hself : Keeps (self .expression)) (tokStart : Nat) (cs : List Cut)
    {p : Parser} (hp : p.Ready) : StaysReady self (fun _ => True) (parseCuts tokStart cs) p := by
  induction cs generalizing p with
  | nil => exact ⟨trivial, hp⟩
  | cons cut cs ih =>
    cases cut with
    | chunk t => exact (ih hp).bind fun _ _ _ hq => ⟨trivial, hq⟩
    | hole start close =>
      rw [parseCuts]
      split
      · exact staysReady_update (ih hp)
      · exact (staysReady_parseHole hself tokStart start close hp).bind fun _ _ _ hq =>
          (ih hq).bind fun _ _ _ hr => ⟨trivial, hr⟩

/-- A literal with holes is parsed as one, or as an empty literal. -/
theorem builds_parseInterpolated {Q : ASTNode → Prop} (hself : Keeps (self .expression))
    (hinterp : ∀ parts isRaw, Q (.interp parts isRaw)) (hempty : Q (.literal "string" "\"\"")) :
    Builds (parseInterpolated self) Q := by
  refine builds_get_bind fun p _ => builds_interpret fun q hq => ?_
  refine StaysReady.bind (staysReady_parseCuts hself _ _ hq) fun parts r _ hr => ?_
  split
  · exact ⟨hinterp _ _, hr⟩
  · exact staysReady_update ⟨hempty, hr⟩

end

end Front
