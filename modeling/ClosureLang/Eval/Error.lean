import ClosureLang.Value.Basic

/-!
# Evaluation errors

An error is the cause of a failed evaluation; `EvalError.message` is its wording.
-/

namespace ClosureLang

/-- Why an evaluation failed. -/
inductive EvalError where
  /-- The name is bound nowhere and is no builtin. -/
  | unknownName (name : String)
  /-- A binary operator between values of two types. -/
  | typeMismatch (left : ValueType) (op : BinaryOp) (right : ValueType)
  /-- A binary operator that values of one type do not have. -/
  | unknownBinary (left : ValueType) (op : BinaryOp) (right : ValueType)
  /-- A unary operator that values of this type do not have. -/
  | unknownUnary (op : UnaryOp) (operand : ValueType)
  /-- A division of `dividend` by zero. -/
  | divisionByZero (dividend : Int64)
  /-- A call with a number of arguments that the function does not take. -/
  | argumentCount (wanted found : Nat)
  /-- A call of a value that is no function. -/
  | notAFunction (found : ValueType)
  /-- An index into a value that has none of that kind. -/
  | noIndex (target : ValueType)
  /-- A hash key of a type that cannot be one. -/
  | badKey (found : ValueType)
  /-- A builtin does not take values of this type. -/
  | unsupported (f : Builtin) (found : ValueType)
  /-- A builtin wants an array. -/
  | arrayWanted (f : Builtin) (found : ValueType)
  deriving DecidableEq, Repr

/-- The wording of an error. -/
def EvalError.message : EvalError → String
  | unknownName name => "identifier not found: " ++ name
  | typeMismatch l op r => "type mismatch: " ++ l.name ++ " " ++ op.symbol ++ " " ++ r.name
  | unknownBinary l op r => "unknown operator: " ++ l.name ++ " " ++ op.symbol ++ " " ++ r.name
  | unknownUnary op r => "unknown operator: " ++ op.symbol ++ r.name
  | divisionByZero n => "division by zero: " ++ n.toInt.repr ++ " / 0"
  | argumentCount wanted found =>
    "wrong number of arguments. got=" ++ found.repr ++ ", want=" ++ wanted.repr
  | notAFunction t => "not a function: " ++ t.name
  | noIndex t => "index operator not supported: " ++ t.name
  | badKey t => "unusable as hash key: " ++ t.name
  | unsupported f t => "argument to `" ++ f.name ++ "` not supported, got " ++ t.name
  | arrayWanted f t => "argument to `" ++ f.name ++ "` must be ARRAY, got " ++ t.name

end ClosureLang
