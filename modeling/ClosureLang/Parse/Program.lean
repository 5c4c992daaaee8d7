import ClosureLang.Parse.Depth

/-!
# Parsing

The productions without a bound, and `parse`, which reads a whole source. Statements that fail are
left out of the program and every failure is reported, so a program without reports is all that the
source holds.
-/

namespace ClosureLang

namespace Cursor

/-- Reads an expression whose operators bind tighter than `min`. -/
def expression (p : Cursor) (min : Precedence) : Option (Expr Unit) × Cursor :=
  (Production.expression p.depth min p).get (p.expression_isSome min)

/-- Reads a statement. -/
def statement (p : Cursor) : Option (Stmt Unit) × Cursor :=
  (Production.statement p.depth p).get p.statement_isSome

/-- Reads statements up to the end of the source, in a block up to its closing brace if that comes
first. -/
def statements (p : Cursor) (inBlock : Bool) : List (Stmt Unit) × Cursor :=
  (Production.statements p.depth inBlock p).get (p.statements_isSome inBlock)

/-- Reads the block whose opening brace is the current token. -/
def block (p : Cursor) : Block Unit × Cursor := p.advance.statements true

/-- Reads statements up to the end of the source. -/
def program (p : Cursor) : Program Unit × Cursor := p.statements false

end Cursor

/-- What the parser makes of a source: the statements that it kept, and all reports. -/
structure Parsed where
  program : Program Unit
  reports : List Report

/-- The diagnostics of a source, first one first. -/
def Parsed.diagnostics (r : Parsed) : List Diagnostic := r.reports.map Report.diagnostic

/-- Parses a source. -/
def parse (source : String) : Parsed :=
  let (program, p) := (Cursor.ofSource source).program
  ⟨program, p.reports.toList⟩

end ClosureLang
