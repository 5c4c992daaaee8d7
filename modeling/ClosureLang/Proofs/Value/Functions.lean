import ClosureLang.Proofs.Value.Hereditary

/-!
# Functions in values

A value holds functions: a closure holds itself, and arrays and hashes hold what the values in them
hold. `Value.AllFunctions P` is that all functions in a value have `P`.

Main statement: `AllFunctions P` is hereditary, so operators, the index and builtins make no
functions. If all functions in their operands have `P`, then so have all functions in what they give.
-/

namespace ClosureLang

variable {τ : Type}

mutual

/-- The functions in a value. -/
def Value.closures : Value τ → List (Closure τ)
  | .null => []
  | .int _ => []
  | .bool _ => []
  | .text _ => []
  | .array items => closuresOfAll items
  | .hash entries => closuresOfEntries entries
  | .closure f => [f]
  | .builtin _ => []

/-- The functions in some values. -/
def closuresOfAll : List (Value τ) → List (Closure τ)
  | [] => []
  | v :: vs => v.closures ++ closuresOfAll vs

/-- The functions in the values of some entries. -/
def closuresOfEntries : List (Key × Value τ) → List (Closure τ)
  | [] => []
  | (_, v) :: rest => v.closures ++ closuresOfEntries rest

end

/-- A function is in some values if it is in one of them. -/
theorem mem_closuresOfAll {f : Closure τ} {vs : List (Value τ)} :
    f ∈ closuresOfAll vs ↔ ∃ v ∈ vs, f ∈ v.closures := by
  induction vs with
  | nil => simp [closuresOfAll]
  | cons v vs ih => simp [closuresOfAll, ih]

theorem mem_closuresOfEntries {f : Closure τ} {entries : List (Key × Value τ)} :
    f ∈ closuresOfEntries entries ↔ ∃ e ∈ entries, f ∈ e.2.closures := by
  induction entries with
  | nil => simp [closuresOfEntries]
  | cons e entries ih => simp [closuresOfEntries, ih]

/-- All functions in a value have `P`. -/
def Value.AllFunctions (P : Closure τ → Prop) (v : Value τ) : Prop := ∀ f ∈ v.closures, P f

namespace Value.AllFunctions

variable {P : Closure τ → Prop} {v : Value τ}

/-- A value without functions is one of which this holds. -/
theorem of_nil (h : v.closures = []) : v.AllFunctions P := by
  intro f hf
  rw [h] at hf
  cases hf

/-- It holds of a function if and only if the function has `P`. -/
theorem closure {f : Closure τ} : (Value.closure f).AllFunctions P ↔ P f := by
  simp [AllFunctions, closures]

/-- It holds of an array if and only if it holds of all its items. -/
theorem array {vs : List (Value τ)} :
    (Value.array vs).AllFunctions P ↔ ∀ v ∈ vs, v.AllFunctions P := by
  constructor
  · intro h v hv f hf
    exact h f (mem_closuresOfAll.mpr ⟨v, hv, hf⟩)
  · intro h f hf
    obtain ⟨v, hv, hfv⟩ := mem_closuresOfAll.mp hf
    exact h v hv f hfv

theorem hash {entries : List (Key × Value τ)} :
    (Value.hash entries).AllFunctions P ↔ ∀ e ∈ entries, e.2.AllFunctions P := by
  constructor
  · intro h e he f hf
    exact h f (mem_closuresOfEntries.mpr ⟨e, he, hf⟩)
  · intro h f hf
    obtain ⟨e, he, hfe⟩ := mem_closuresOfEntries.mp hf
    exact h e he f hfe

end Value.AllFunctions

/-- What can be a key holds no function. -/
theorem Key.closures_value (k : Key) : (k.value : Value τ).closures = [] := by
  cases k <;> rfl

/-- **That all functions in a value have `P` goes down into arrays and hashes.** -/
theorem Value.AllFunctions.hereditary (P : Closure τ → Prop) :
    Value.Hereditary (Value.AllFunctions P) where
  null := .of_nil rfl
  key := fun k => .of_nil k.closures_value
  array := AllFunctions.array
  hash := AllFunctions.hash.mp

end ClosureLang
