import ClosureLang.Eval.Program
import ClosureLang.Tree.Tagging

/-!
# Sessions

A session evaluates one program after another on one machine. It gives every function literal that
it loads a number of its own, so that two closures can be told to come from the same literal.
-/

namespace ClosureLang

/-- How deep calls of closures may nest when programs are run from outside. -/
def nestingLimit : Nat := 1000000

/-- A machine, and the first number that no function literal on it has. -/
structure Session where
  machine : Machine Nat := {}
  fresh : Nat := 0

namespace Session

/-- Numbers the function literals of a program. -/
def load (s : Session) (p : Program Unit) : Program Nat × Session :=
  let (p, fresh) := tagBlock p s.fresh
  (p, { s with fresh })

/-- Makes a scope inside another one, or on its own. -/
def addScope (s : Session) (outer : Option ScopeId) : ScopeId × Session :=
  let (scope, store) := s.machine.store.add outer
  (scope, { s with machine := { s.machine with store } })

/-- Binds a name in a scope. -/
def define (s : Session) (scope : ScopeId) (name : String) (v : Value Nat) : Session :=
  { s with machine := { s.machine with store := s.machine.store.define scope name v } }

/-- The value of a name as seen from a scope. Builtins are bound in no scope. -/
def lookup (s : Session) (scope : ScopeId) (name : String) : Option (Value Nat) :=
  s.machine.store.lookup name scope

/-- A function as a literal on its own makes it in a scope. -/
def function (s : Session) (scope : ScopeId) (params : List String) (body : Block Unit) :
    Value Nat × Session :=
  let (body, fresh) := tagBlock body (s.fresh + 1)
  (.closure ⟨params, body, s.fresh, scope⟩, { s with fresh })

/-- Does something on the machine of the session. -/
def perform {α : Type} (s : Session) (m : Machine Nat → Option (α × Machine Nat)) :
    Option (α × Session) :=
  (m s.machine).map fun (a, machine) => (a, { s with machine })

/-- Evaluates a loaded program in a scope. -/
def run (s : Session) (scope : ScopeId) (p : Program Nat) :
    Option (Except EvalError (Value Nat) × Session) :=
  s.perform (p.run nestingLimit scope)

/-- Calls a value with some arguments. -/
def call (s : Session) (f : Value Nat) (args : List (Value Nat)) :
    Option (Except EvalError (Value Nat) × Session) :=
  s.perform (f.call nestingLimit args)

/-- Evaluates an expression in a scope. -/
def evalExpr (s : Session) (scope : ScopeId) (x : Expr Nat) :
    Option (Except (Exit Nat) (Value Nat) × Session) :=
  s.perform (x.eval (apply nestingLimit) scope)

/-- Evaluates a statement in a scope. -/
def evalStmt (s : Session) (scope : ScopeId) (x : Stmt Nat) :
    Option (Except (Exit Nat) (Value Nat) × Session) :=
  s.perform (x.eval (apply nestingLimit) scope)

/-- Evaluates the statements of a block in a scope. -/
def evalBlock (s : Session) (scope : ScopeId) (b : Block Nat) :
    Option (Except (Exit Nat) (Value Nat) × Session) :=
  s.perform (ClosureLang.evalBlock (apply nestingLimit) scope .null b)

end Session

end ClosureLang
