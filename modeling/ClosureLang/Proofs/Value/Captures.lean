import ClosureLang.Proofs.Value.Functions

/-!
# Scopes that values refer to

A closure refers to the scope in which it was made, and arrays and hashes refer to what the values
in them refer to. `Value.CapturesBelow n` is that all these scopes are among the first `n`.

Main statement: operators, the index and builtins make no new references. What they give refers only
to scopes that their operands refer to, since it holds only functions that these hold.
-/

namespace ClosureLang

variable {τ : Type}

mutual

/-- The scopes in which the functions in a value were made. -/
def Value.captures : Value τ → List ScopeId
  | .null => []
  | .int _ => []
  | .bool _ => []
  | .text _ => []
  | .array items => capturesOfAll items
  | .hash entries => capturesOfEntries entries
  | .closure f => [f.scope]
  | .builtin _ => []

/-- The scopes that some values refer to. -/
def capturesOfAll : List (Value τ) → List ScopeId
  | [] => []
  | v :: vs => v.captures ++ capturesOfAll vs

/-- The scopes that the values of some entries refer to. -/
def capturesOfEntries : List (Key × Value τ) → List ScopeId
  | [] => []
  | (_, v) :: rest => v.captures ++ capturesOfEntries rest

end

mutual

/-- A value refers to the scopes of its functions. -/
theorem Value.captures_eq : ∀ v : Value τ, v.captures = v.closures.map Closure.scope
  | .null => rfl
  | .int _ => rfl
  | .bool _ => rfl
  | .text _ => rfl
  | .array items => capturesOfAll_eq items
  | .hash entries => capturesOfEntries_eq entries
  | .closure _ => rfl
  | .builtin _ => rfl

theorem capturesOfAll_eq : ∀ vs : List (Value τ),
    capturesOfAll vs = (closuresOfAll vs).map Closure.scope
  | [] => rfl
  | v :: vs => by
    rw [capturesOfAll, closuresOfAll, v.captures_eq, capturesOfAll_eq vs, List.map_append]

theorem capturesOfEntries_eq : ∀ es : List (Key × Value τ),
    capturesOfEntries es = (closuresOfEntries es).map Closure.scope
  | [] => rfl
  | (_, v) :: es => by
    rw [capturesOfEntries, closuresOfEntries, v.captures_eq, capturesOfEntries_eq es,
      List.map_append]

end

/-- All scopes that a value refers to are among the first `n`. -/
def Value.CapturesBelow (n : Nat) (v : Value τ) : Prop := ∀ i ∈ v.captures, i < n

/-- All functions in a value were made in the first `n` scopes. -/
theorem Value.capturesBelow_iff {n : Nat} {v : Value τ} :
    v.CapturesBelow n ↔ v.AllFunctions fun f => f.scope < n := by
  rw [CapturesBelow, captures_eq, List.forall_mem_map]
  rfl

namespace Value.CapturesBelow

variable {n m : Nat} {v : Value τ}

/-- A scope below a bound is below a higher one. -/
theorem mono (h : v.CapturesBelow n) (hnm : n ≤ m) : v.CapturesBelow m :=
  fun i hi => Nat.lt_of_lt_of_le (h i hi) hnm

theorem of_nil (h : v.closures = []) : v.CapturesBelow n :=
  capturesBelow_iff.mpr (.of_nil h)

/-- A closure captures one scope, and no matter what its body may do when it runs. -/
theorem closure {f : Closure τ} : (Value.closure f).CapturesBelow n ↔ f.scope < n := by
  rw [capturesBelow_iff, AllFunctions.closure]

theorem array {vs : List (Value τ)} :
    (Value.array vs).CapturesBelow n ↔ ∀ v ∈ vs, v.CapturesBelow n := by
  simp only [capturesBelow_iff, AllFunctions.array]

theorem hash {entries : List (Key × Value τ)} :
    (Value.hash entries).CapturesBelow n ↔ ∀ e ∈ entries, e.2.CapturesBelow n := by
  simp only [capturesBelow_iff, AllFunctions.hash]

/-- That a value refers to the first `n` scopes only goes down into arrays and hashes. -/
theorem hereditary (n : Nat) : Value.Hereditary (Value.CapturesBelow (τ := τ) n) where
  null := .of_nil rfl
  key := fun k => .of_nil k.closures_value
  array := CapturesBelow.array
  hash := CapturesBelow.hash.mp

end Value.CapturesBelow

end ClosureLang
