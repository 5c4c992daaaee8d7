import ClosureLang.Proofs.Parse.Complete
import ClosureLang.Proofs.Token.Reading

/-!
# The parser accepts its grammar and builds its trees

A source parses without a diagnostic if and only if its tokens are a program of the grammar
(`ClosureLang.Proofs.Parse.Grammar`), and then the program that the parser returns is the only one
that they are.
-/

namespace ClosureLang

namespace Cursor

theorem noEnd_ofSource (source : String) : Grammar.NoEnd (ofSource source).tokens :=
  fun _ ht => Scanner.kind_ne_eof_of_mem ht

/-- What is read without a bound is what the bounded production gives. -/
theorem statements_eq (p : Cursor) (inBlock : Bool) :
    Production.statements p.depth inBlock p = some (p.statements inBlock) :=
  (Option.some_get (p.statements_isSome inBlock)).symm

/-- The statements of a whole source, as the bounded production gives them. -/
theorem program_eq (p : Cursor) :
    Production.statements p.depth false p = some (p.program.1, p.program.2) :=
  p.statements_eq false

end Cursor

theorem length_tokenize (source : String) :
    (tokenize source).length = (Cursor.ofSource source).left + 1 := by
  simp [tokenize, Scanner.remaining, Scanner.ofString, Cursor.ofSource, Cursor.left]

theorem diagnostics_eq_nil_iff (source : String) :
    (parse source).diagnostics = [] ↔
      Cursor.Quiet (Cursor.ofSource source) (Cursor.ofSource source).program.2 := by
  simp [Parsed.diagnostics, parse, Cursor.Quiet, Cursor.ofSource]

/-- What parses without a diagnostic is a program of the grammar. -/
theorem program_of_diagnostics_eq_nil {source : String} (h : (parse source).diagnostics = []) :
    Grammar.Program (tokenize source).dropLast (parse source).program := by
  rw [dropLast_tokenize]
  obtain ⟨hp, hend⟩ := (Production.sound _).statements (Cursor.ofSource source).program_eq
    ((diagnostics_eq_nil_iff source).mp h) (Cursor.noEnd_ofSource source)
  rcases hend with hnil | ⟨hblock, _⟩
  · rw [hnil] at hp
    exact hp
  · cases hblock

/-- A program of the grammar parses without a diagnostic, to itself. -/
theorem parse_of_program {source : String} {p : List (Stmt Unit)}
    (h : Grammar.Program (tokenize source).dropLast p) :
    (parse source).diagnostics = [] ∧ (parse source).program = p := by
  rw [dropLast_tokenize] at h
  obtain ⟨q, he, _, hreports⟩ := h.read (p := Cursor.ofSource source) rfl (Or.inl rfl)
    (Cursor.ofSource source).program_eq
  rw [Prod.mk.injEq] at he
  refine ⟨(diagnostics_eq_nil_iff source).mpr ?_, he.1⟩
  rw [he.2]
  exact Nat.le_of_eq (congrArg Array.size hreports)

/-- **The parser accepts exactly its grammar and builds exactly its tree.** A source has no
diagnostics if and only if its tokens derive from the grammar, and then the program returned is the
one tree that they derive. -/
theorem parse_iff_grammar (source : String) :
    ((parse source).diagnostics = [] ↔ ∃ p, Grammar.Program (tokenize source).dropLast p) ∧
      ((parse source).diagnostics = [] →
        Grammar.Program (tokenize source).dropLast (parse source).program ∧
          ∀ p, Grammar.Program (tokenize source).dropLast p → p = (parse source).program) := by
  constructor
  · exact ⟨fun h => ⟨_, program_of_diagnostics_eq_nil h⟩, fun ⟨p, hp⟩ => (parse_of_program hp).1⟩
  · intro h
    exact ⟨program_of_diagnostics_eq_nil h, fun p hp => (parse_of_program hp).2.symm⟩

end ClosureLang
