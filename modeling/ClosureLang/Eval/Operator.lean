import ClosureLang.Eval.Error
import ClosureLang.Number.Power
import ClosureLang.Value.Entries

/-!
# Operators and builtins on values

What the operators, the index and the builtins make of values that have been computed. None of them
looks at scopes.

Integers are 64 bits wide and wrap; division cuts the fraction off. An integer and a boolean can be
compared for equality, where an integer other than zero counts as true.
-/

namespace ClosureLang

variable {τ : Type}

/-- A unary operator. -/
def UnaryOp.eval : UnaryOp → Value τ → Except EvalError (Value τ)
  | .not, v => .ok (.bool !v.truthy)
  | .negate, .int n => .ok (.int (-n))
  | .negate, v => .error (.unknownUnary .negate v.type)

/-- A binary operator on integers. -/
def BinaryOp.evalInt : BinaryOp → Int64 → Int64 → Except EvalError (Value τ)
  | .add, a, b => .ok (.int (a + b))
  | .sub, a, b => .ok (.int (a - b))
  | .mul, a, b => .ok (.int (a * b))
  | .div, a, b => if b = 0 then .error (.divisionByZero a) else .ok (.int (a / b))
  | .power, a, b => .ok (.int (roundedPower a b))
  | .less, a, b => .ok (.bool (a < b))
  | .greater, a, b => .ok (.bool (b < a))
  | .equal, a, b => .ok (.bool (a == b))
  | .notEqual, a, b => .ok (.bool (a != b))

/-- A binary operator on strings. -/
def BinaryOp.evalText : BinaryOp → String → String → Except EvalError (Value τ)
  | .add, s, t => .ok (.text (s ++ t))
  | .equal, s, t => .ok (.bool (s == t))
  | .notEqual, s, t => .ok (.bool (s != t))
  | op, _, _ => .error (.unknownBinary .string op .string)

/-- A binary operator on booleans. -/
def BinaryOp.evalBool : BinaryOp → Bool → Bool → Except EvalError (Value τ)
  | .equal, a, b => .ok (.bool (a == b))
  | .notEqual, a, b => .ok (.bool (a != b))
  | op, _, _ => .error (.unknownBinary .boolean op .boolean)

/-- What is wrong with an operator between two values that do not have it. -/
def BinaryOp.mismatch (op : BinaryOp) (v w : Value τ) : EvalError :=
  if v.type = w.type then .unknownBinary v.type op w.type else .typeMismatch v.type op w.type

/-- A binary operator. -/
def BinaryOp.eval (op : BinaryOp) (v w : Value τ) : Except EvalError (Value τ) :=
  match v, w with
  | .int a, .int b => op.evalInt a b
  | .text s, .text t => op.evalText s t
  | .bool a, .bool b => op.evalBool a b
  | .int n, .bool b =>
    match op with
    | .equal => .ok (.bool ((n != 0) == b))
    | .notEqual => .ok (.bool ((n != 0) != b))
    | _ => .error (.typeMismatch .integer op .boolean)
  | .bool b, .int n =>
    match op with
    | .equal => .ok (.bool ((n != 0) == b))
    | .notEqual => .ok (.bool ((n != 0) != b))
    | _ => .error (.typeMismatch .boolean op .integer)
  | v, w => .error (op.mismatch v w)

/-- The key of a value, which has to be an integer, a boolean or a string. -/
def Value.key (v : Value τ) : Except EvalError Key :=
  match v.key? with
  | some k => .ok k
  | none => .error (.badKey v.type)

/-- The element of an array at an index, or the value under a key of a hash; `null` if there is
none. -/
def Value.index (target key : Value τ) : Except EvalError (Value τ) :=
  match target, key with
  | .array items, .int n =>
    .ok (if n < 0 then .null else (items[n.toInt.toNat]?).getD .null)
  | .hash entries, key => do
    let k ← key.key
    return (entries.lookup k).getD .null
  | target, _ => .error (.noIndex target.type)

namespace Builtin

/-- How many arguments a builtin takes. -/
def arity : Builtin → Nat
  | push => 2
  | _ => 1

/-- A builtin that takes an array and perhaps more, once the number of arguments is right. -/
def evalArray (f : Builtin) (items : List (Value τ)) (more : List (Value τ)) : Value τ :=
  match f with
  | len => .int (Int64.ofNat items.length)
  | first => items.head?.getD .null
  | last => items.getLast?.getD .null
  | rest => if items.isEmpty then .null else .array items.tail
  | push => .array (items ++ more)

/-- Calls a builtin. The number of arguments is checked before their types. -/
def eval (f : Builtin) (args : List (Value τ)) : Except EvalError (Value τ) :=
  if args.length = f.arity then
    match f, args with
    | f, .array items :: more => .ok (f.evalArray items more)
    | len, .text s :: _ => .ok (.int (Int64.ofNat s.utf8ByteSize))
    | len, v :: _ => .error (.unsupported len v.type)
    | f, v :: _ => .error (.arrayWanted f v.type)
    | f, [] => .error (.argumentCount f.arity 0)
  else .error (.argumentCount f.arity args.length)

end Builtin

end ClosureLang
