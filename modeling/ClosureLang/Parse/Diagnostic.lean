import ClosureLang.Token.Basic

/-!
# Diagnostics of the parser

A diagnostic is the cause of a parse error; `Diagnostic.message` is its wording. A report is a
diagnostic with the place at which the parser stood.
-/

namespace ClosureLang

/-- What the parser complains about. -/
inductive Diagnostic where
  /-- Another kind of token had to come next. -/
  | unexpected (wanted found : TokenKind)
  /-- No expression starts with this kind of token. -/
  | noOperand (found : TokenKind)
  /-- The digits do not fit a signed 64-bit integer. -/
  | badInteger (literal : String)
  deriving DecidableEq, Repr, Inhabited

/-- The wording of a diagnostic. -/
def Diagnostic.message : Diagnostic → String
  | unexpected wanted found =>
    "expected next token to be " ++ wanted.name ++ ", got " ++ found.name ++ " instead"
  | noOperand found => "no prefix parse function for " ++ found.name ++ " found"
  | badInteger literal => "could not parse \"" ++ literal ++ "\" as integer"

/-- A diagnostic and the offset of the token that was current when it was recorded. -/
structure Report where
  diagnostic : Diagnostic
  position : Nat
  deriving DecidableEq, Repr, Inhabited

end ClosureLang
