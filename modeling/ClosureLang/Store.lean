import ClosureLang.Value.Basic

/-!
# Scopes and their store

A scope binds names to values and may lie inside an outer scope. Scopes are numbered in the order in
which they are made and are never removed; an outer scope is always older than the scopes inside it.

Main statements: a name is looked up in a scope and then in the scopes around it
(`Store.lookup_eq`), and `Store.define` changes one scope only (`Store.getElem?_define`).
-/

namespace ClosureLang

/-- A scope: its bindings, the latest first, and the scope around it. A binding hides the earlier
ones of the same name. -/
structure Scope (τ : Type) where
  bindings : List (String × Value τ)
  outer : Option ScopeId

/-- All scopes made so far, in the order of their numbers. -/
structure Store (τ : Type) where
  scopes : Array (Scope τ)

namespace Store

variable {τ : Type}

/-- The store without scopes. -/
def empty : Store τ := ⟨#[]⟩

/-- Adds an empty scope inside `outer`, or on its own, and gives its number. -/
def add (s : Store τ) (outer : Option ScopeId) : ScopeId × Store τ :=
  (s.scopes.size, ⟨s.scopes.push ⟨[], outer⟩⟩)

/-- Binds a name in a scope. -/
def define (s : Store τ) (scope : ScopeId) (name : String) (v : Value τ) : Store τ :=
  ⟨s.scopes.modify scope fun c => { c with bindings := (name, v) :: c.bindings }⟩

/-- The value of a name in a scope or, if it is not bound there, in the scopes around it. A link that
does not lead to an older scope is not followed. -/
def lookup (s : Store τ) (name : String) (scope : ScopeId) : Option (Value τ) :=
  match s.scopes[scope]? with
  | none => none
  | some c =>
    match c.bindings.lookup name with
    | some v => some v
    | none =>
      match c.outer with
      | none => none
      | some o => if o < scope then s.lookup name o else none
termination_by scope

/-- After a binding was made, the scope in which it was made has it and the others are as before. -/
theorem getElem?_define (s : Store τ) (scope i : ScopeId) (name : String) (v : Value τ) :
    (s.define scope name v).scopes[i]? =
      if scope = i then
        s.scopes[i]?.map fun c => { c with bindings := (name, v) :: c.bindings }
      else s.scopes[i]? := by
  simp only [define, Array.getElem?_modify]

@[simp] theorem size_define (s : Store τ) (scope : ScopeId) (name : String) (v : Value τ) :
    (s.define scope name v).scopes.size = s.scopes.size := by
  simp [define]

/-- A name is looked up in the scope itself and then in the one around it. -/
theorem lookup_eq (s : Store τ) (name : String) (scope : ScopeId) {c : Scope τ}
    (h : s.scopes[scope]? = some c) :
    s.lookup name scope =
      match c.bindings.lookup name with
      | some v => some v
      | none =>
        match c.outer with
        | none => none
        | some o => if o < scope then s.lookup name o else none := by
  rw [lookup, h]

end Store

end ClosureLang
