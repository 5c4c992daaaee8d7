import ClosureLang.Eval.Operator
import ClosureLang.Store

/-!
# Evaluations

An evaluation changes a machine, which holds the store and a record of the calls made. It ends with a
result or with an exit, a return or an error, and in either case with the changed machine. It has no
end at all if calls nest deeper than they may.
-/

namespace ClosureLang

/-- A call as it is recorded: what was called, with how many arguments. -/
inductive CallEvent where
  | closure (arity : Nat)
  | builtin (f : Builtin) (arity : Nat)
  deriving DecidableEq, Repr

/-- What evaluation changes: the store of scopes and the record of calls, first one first. -/
structure Machine (τ : Type) where
  store : Store τ := .empty
  calls : Array CallEvent := #[]

/-- Why statements stop before their end. -/
inductive Exit (τ : Type) where
  | returned (v : Value τ)
  | failed (e : EvalError)

/-- An evaluation: `none` if it has no end within the depth of calls that it was given. -/
def Eval (τ α : Type) := Machine τ → Option (Except (Exit τ) α × Machine τ)

namespace Eval

variable {τ α β : Type}

/-- Runs one evaluation after another; an exit ends both. -/
def andThen (m : Eval τ α) (f : α → Eval τ β) : Eval τ β := fun s =>
  match m s with
  | none => none
  | some (.ok a, s) => f a s
  | some (.error x, s) => some (.error x, s)

instance : Monad (Eval τ) where
  pure a := fun s => some (.ok a, s)
  bind := andThen

theorem bind_of_ok {m : Eval τ α} {f : α → Eval τ β} {s t : Machine τ} {a : α}
    (h : m s = some (.ok a, t)) : (m >>= f) s = f a t := by
  show andThen m f s = f a t
  unfold andThen
  rw [h]

/-- One evaluation after another ends where the second one does, or with an exit of the first. -/
theorem bind_cases {m : Eval τ α} {f : α → Eval τ β} {s t : Machine τ} {r : Except (Exit τ) β}
    (h : (m >>= f) s = some (r, t)) :
    (∃ a u, m s = some (.ok a, u) ∧ f a u = some (r, t)) ∨
      ∃ x, m s = some (.error x, t) ∧ r = .error x := by
  change andThen m f s = some (r, t) at h
  unfold andThen at h
  split at h
  · cases h
  · next a u hm => exact Or.inl ⟨a, u, hm, h⟩
  · next x u hm =>
    cases h
    exact Or.inr ⟨x, hm, rfl⟩

/-- Ends with an exit. -/
def exit (x : Exit τ) : Eval τ α := fun s => some (.error x, s)

/-- Has no end: calls nest too deep. -/
def tooDeep : Eval τ α := fun _ => none

/-- Ends as an operation on values does. -/
def lift (r : Except EvalError α) : Eval τ α := fun s => some (r.mapError .failed, s)

/-- The value of a name as seen from a scope; a name that is bound nowhere may be a builtin. -/
def name (scope : ScopeId) (n : String) : Eval τ (Value τ) := fun s =>
  match s.store.lookup n scope with
  | some v => some (.ok v, s)
  | none =>
    match Builtin.ofName? n with
    | some f => some (.ok (.builtin f), s)
    | none => some (.error (.failed (.unknownName n)), s)

/-- Binds a name in a scope. -/
def define (scope : ScopeId) (n : String) (v : Value τ) : Eval τ Unit := fun s =>
  some (.ok (), { s with store := s.store.define scope n v })

/-- Makes a scope inside another one. -/
def enclose (outer : ScopeId) : Eval τ ScopeId := fun s =>
  let (scope, store) := s.store.add (some outer)
  some (.ok scope, { s with store })

/-- Records a call. -/
def record (c : CallEvent) : Eval τ Unit := fun s =>
  some (.ok (), { s with calls := s.calls.push c })

end Eval

/-- The outcome of a whole body: a return gives its value. -/
def settle {τ : Type} : Except (Exit τ) (Value τ) → Except EvalError (Value τ)
  | .ok v => .ok v
  | .error (.returned v) => .ok v
  | .error (.failed e) => .error e

end ClosureLang
