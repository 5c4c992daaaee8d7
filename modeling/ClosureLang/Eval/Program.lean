import ClosureLang.Eval.Machine

/-!
# Evaluation

Operands are evaluated from left to right and the first exit ends the evaluation. Statements are
evaluated in order and the value of the last one is the value of a block. A return passes through
blocks and stops at the call, or at the root of the program, which has a loop over its statements of
its own (`runStatements`). The two boundaries do the same (`Program.run_eq`).

## Termination

The evaluation of a tree goes down the tree, given what a call of a value does. A call goes down from
a bound on how deep calls of closures may nest, given to `apply`: what the body of a closure calls may
nest one call less.
-/

namespace ClosureLang

variable {τ : Type}

/-- What a call of a value with some arguments does. -/
abbrev Caller (τ : Type) := Value τ → List (Value τ) → Eval τ (Value τ)

mutual

/-- Evaluates an expression in a scope. -/
def Expr.eval (call : Caller τ) (scope : ScopeId) : Expr τ → Eval τ (Value τ)
  | .name n => Eval.name scope n
  | .int n => pure (.int n)
  | .text s => pure (.text s)
  | .bool b => pure (.bool b)
  | .array items => do
    let vs ← evalExprs call scope items
    pure (.array vs)
  | .hash pairs => do
    let stored ← evalPairs call scope [] pairs
    pure (.hash (entriesOf stored))
  | .unary op x => do
    let v ← x.eval call scope
    Eval.lift (op.eval v)
  | .binary op x y => do
    let v ← x.eval call scope
    let w ← y.eval call scope
    Eval.lift (op.eval v w)
  | .cond test yes no => do
    let v ← test.eval call scope
    if v.truthy then evalBlock call scope .null yes
    else
      match no with
      | some b => evalBlock call scope .null b
      | none => pure .null
  | .fn tag params body => pure (.closure ⟨params, body, tag, scope⟩)
  | .call f args => do
    let v ← f.eval call scope
    let vs ← evalExprs call scope args
    call v vs
  | .index x i => do
    let v ← x.eval call scope
    let w ← i.eval call scope
    Eval.lift (v.index w)

/-- Evaluates expressions from left to right. -/
def evalExprs (call : Caller τ) (scope : ScopeId) : List (Expr τ) → Eval τ (List (Value τ))
  | [] => pure []
  | x :: xs => do
    let v ← x.eval call scope
    let vs ← evalExprs call scope xs
    pure (v :: vs)

/-- Evaluates the pairs of a hash literal from left to right and adds to `stored` the object of each
key and the value, under the key. A key is checked before its value is evaluated. -/
def evalPairs (call : Caller τ) (scope : ScopeId) (stored : List (Key × Stored τ)) :
    List (Expr τ × Expr τ) → Eval τ (List (Key × Stored τ))
  | [] => pure stored
  | (x, y) :: ps => do
    let object ← x.eval call scope
    let k ← Eval.lift object.key
    let v ← y.eval call scope
    evalPairs call scope (insertEntry k ⟨object, v⟩ stored) ps

/-- Evaluates statements in order. The value is that of the last one, or `last` if there is none. -/
def evalBlock (call : Caller τ) (scope : ScopeId) (last : Value τ) :
    List (Stmt τ) → Eval τ (Value τ)
  | [] => pure last
  | s :: b => do
    let v ← s.eval call scope
    evalBlock call scope v b

/-- Evaluates a statement. The value of a binding is the bound value. -/
def Stmt.eval (call : Caller τ) (scope : ScopeId) : Stmt τ → Eval τ (Value τ)
  | .bind n x => do
    let v ← x.eval call scope
    Eval.define scope n v
    pure v
  | .ret x => do
    let v ← x.eval call scope
    Eval.exit (.returned v)
  | .expr x => x.eval call scope

end

/-- Binds names to values one after the other, so that of two equal names the later one counts. -/
def defineAll (scope : ScopeId) : List (String × Value τ) → Eval τ Unit
  | [] => pure ()
  | (n, v) :: rest => do
    Eval.define scope n v
    defineAll scope rest

/-- Runs the body of a closure in a scope of its own, inside the one in which the closure was made. -/
def Closure.enter (call : Caller τ) (f : Closure τ) (args : List (Value τ)) : Eval τ (Value τ) := do
  Eval.record (.closure args.length)
  let scope ← Eval.enclose f.scope
  defineAll scope (f.params.zip args)
  fun s => (evalBlock call scope .null f.body s).map fun (r, s) => ((settle r).mapError .failed, s)

/-- Calls a value, given what the call of a closure does once it has as many arguments as it wants. -/
def applyWith (enter : Closure τ → List (Value τ) → Eval τ (Value τ)) : Caller τ
  | .closure f, args =>
    if f.params.length = args.length then enter f args
    else Eval.exit (.failed (.argumentCount f.params.length args.length))
  | .builtin f, args => do
    Eval.record (.builtin f args.length)
    Eval.lift (f.eval args)
  | v, _ => Eval.exit (.failed (.notAFunction v.type))

/-- Calls a value. Calls of closures may nest `depth` deep. -/
def apply : Nat → Caller τ
  | 0 => applyWith fun _ _ => Eval.tooDeep
  | depth + 1 => applyWith fun f args => f.enter (apply depth) args

/-- An evaluation as seen from outside: its value or error, and the machine it leaves. -/
def Eval.run (m : Eval τ (Value τ)) (s : Machine τ) :
    Option (Except EvalError (Value τ) × Machine τ) :=
  (m s).map fun (r, s) => (settle r, s)

/-- Runs the statements at the root of a program in order. A return ends them with its value and a
failure with its error; if neither comes, the value is that of the last one, or `last` if there is
none. -/
def runStatements (call : Caller τ) (scope : ScopeId) (last : Value τ) :
    List (Stmt τ) → Machine τ → Option (Except EvalError (Value τ) × Machine τ)
  | [], s => some (.ok last, s)
  | x :: rest, s =>
    match x.eval call scope s with
    | none => none
    | some (.ok v, s) => runStatements call scope v rest s
    | some (.error (.returned v), s) => some (.ok v, s)
    | some (.error (.failed e), s) => some (.error e, s)

/-- Evaluates a program in a scope. Calls of closures may nest `depth` deep. -/
def Program.run (depth : Nat) (p : Program τ) (scope : ScopeId) (s : Machine τ) :
    Option (Except EvalError (Value τ) × Machine τ) :=
  runStatements (apply depth) scope .null p s

/-- Calls a value with some arguments. Calls of closures may nest `depth` deep. -/
def Value.call (depth : Nat) (f : Value τ) (args : List (Value τ)) (s : Machine τ) :
    Option (Except EvalError (Value τ) × Machine τ) :=
  (apply depth f args).run s

/-! ## The root of a program -/

/-- The statements at the root end as they do in a block whose exit is settled. -/
theorem runStatements_eq (call : Caller τ) (scope : ScopeId) (last : Value τ) (b : List (Stmt τ))
    (s : Machine τ) : runStatements call scope last b s = (evalBlock call scope last b).run s := by
  induction b generalizing last s with
  | nil => rfl
  | cons x b ih =>
    show _ = Option.map _ (Eval.andThen (x.eval call scope) _ s)
    unfold runStatements Eval.andThen
    rcases x.eval call scope s with - | ⟨(v | e) | v, t⟩
    · rfl
    · rfl
    · rfl
    · exact ih v t

/-- **A program ends as its statements do in a block**, but for a return, which gives its value. -/
theorem Program.run_eq (depth : Nat) (p : Program τ) (scope : ScopeId) (s : Machine τ) :
    p.run depth scope s = (evalBlock (apply depth) scope .null p).run s :=
  runStatements_eq (apply depth) scope .null p s

end ClosureLang
