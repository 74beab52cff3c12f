import Orbit.Front.Declarations
import Orbit.Tir.Proof.Lower
import Orbit.Tir.Proof.Parsed

/-!
# The entry of the frontend

`compiler/tir/entry.orb`: a source is parsed, its tree is lowered, and what the parser reported is
added to the module, which has no text then.

A program that the frontend gives text for has one well-formed function for each function that it
declares (`wellFormed_compiled`): the parser builds trees of the shape that the lowering takes
(`shapes_parseSource`), and what is reported keeps the text back. A function whose body can end
without a `return` has one block without a terminator (`falls_through`).
-/

namespace Tir

open Front (ASTNode ParserDiagnostic parseSource)
open Front.Lex (Text)

def appendParserDiagnostics (m : TirModule) (diagnostics : List ParserDiagnostic) : TirModule :=
  { m with diagnostics := m.diagnostics ++ diagnostics.map fun d =>
      tirError "E1000" d.message d.line d.column }

/-- With at most so many calls of the parser inside each other. -/
def compileFrontendModule (calls : Nat) (moduleName : String) (source : Text) :
    Option TirModule := do
  let (root, parser) ← parseSource calls source
  return appendParserDiagnostics (lowerProgramToTir moduleName root) parser.diagnostics

def compileFrontendSource (calls : Nat) (moduleName : String) (source : Text) :
    Option String := (compileFrontendModule calls moduleName source).map tirCanonical

/-- What a module that is compiled from a source was parsed and lowered as. -/
structure CompiledAs (calls : Nat) (source : Text) (decls : List ASTNode) (m : TirModule) :
    Prop where
  parsed : ∃ p, parseSource calls source = some (.program decls, p)
  functions : List.Forall₂ (fun d f => WellFormed d.1 d.2 f) (decls.filterMap functionDecl?)
    m.functions

/-- **A program that the frontend gives text for is lowered to well-formed functions.** -/
theorem wellFormed_compiled {calls : Nat} {moduleName : String} {source : Text} {m : TirModule}
    (h : compileFrontendModule calls moduleName source = some m) (htext : tirCanonical m ≠ "") :
    ∃ decls, CompiledAs calls source decls m := by
  rw [compileFrontendModule] at h
  obtain ⟨⟨root, p⟩, hparsed, hm⟩ := Option.bind_eq_some_iff.mp h
  obtain ⟨decls, rfl, hshape⟩ := shapes_parseSource hparsed
  obtain rfl := Option.some.inj hm
  exact ⟨decls, ⟨p, hparsed⟩, wellFormed_program hshape rfl (List.prefix_append _ _) htext⟩

/-! ## A function with a branch, and one that ends without `return` -/

def branching : Text :=
  Lib.Text.chars "fn f(c: bool) -> int \x7b if c \x7b return 1 \x7d else \x7b return 2 \x7d \x7d"

theorem branching_compiled : ∃ m, compileFrontendModule 20 "m" branching = some m ∧
    tirCanonical m ≠ "" ∧ ∃ decls, CompiledAs 20 branching decls m := by
  have hrun : (compileFrontendModule 20 "m" branching).any (tirCanonical · ≠ "") = true := by
    decide +kernel
  obtain ⟨m, hm, htext⟩ := (Option.any_eq_true _ _).mp hrun
  exact ⟨m, hm, of_decide_eq_true htext, wellFormed_compiled hm (of_decide_eq_true htext)⟩

def straight : Text := Lib.Text.chars "fn f() \x7b val x = 1 \x7d"

/-- The entry block of a function without a `return` has no terminator. -/
theorem falls_through : ¬ ∀ (calls : Nat) (moduleName : String) (source : Text) (m : TirModule),
    compileFrontendModule calls moduleName source = some m → tirCanonical m ≠ "" →
      ∀ f ∈ m.functions, ∀ b, Reaches f.instructions b → Terminated (blockOf b f.instructions) := by
  intro h
  have hrun : (compileFrontendModule 20 "m" straight).any (fun m => tirCanonical m ≠ "" ∧
      m.functions.any fun f => (blockOf 0 f.instructions).all fun i => !i.isTerminator) = true := by
    decide +kernel
  obtain ⟨m, hm, hopen⟩ := (Option.any_eq_true _ _).mp hrun
  obtain ⟨htext, hopen⟩ := of_decide_eq_true hopen
  obtain ⟨f, hf, hopen⟩ := List.any_eq_true.mp hopen
  obtain ⟨before, last, hblock, hlast, -⟩ := h 20 "m" straight m hm htext f hf 0 .refl
  have hall := List.all_eq_true.mp hopen last
    (hblock ▸ List.mem_append_right _ (List.mem_singleton_self _))
  rw [hlast] at hall
  exact absurd hall Bool.false_ne_true

end Tir
