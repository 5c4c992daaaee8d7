import ClosureLang.Value.Basic

/-!
# Equality of values

Plain data are equal by type and content. Functions are equal only if they come from the same
literal and were made in the same scope; equal text is not enough. Since the entries of hashes are
in the order of their keys, hashes are compared entry by entry.
-/

namespace ClosureLang

variable {τ : Type}

/-- Whether two closures are the same function: they have the same parameters, come from the same
literal, and were made in the same scope. -/
def Closure.same [DecidableEq τ] (f g : Closure τ) : Bool :=
  f.params == g.params && decide (f.tag = g.tag) && f.scope == g.scope

mutual

/-- Whether two values are equal. -/
def Value.same [DecidableEq τ] : Value τ → Value τ → Bool
  | .null, .null => true
  | .int m, .int n => m == n
  | .bool a, .bool b => a == b
  | .text s, .text t => s == t
  | .array xs, .array ys => sameItems xs ys
  | .hash es, .hash fs => sameEntries es fs
  | .closure f, .closure g => f.same g
  | .builtin f, .builtin g => f == g
  | _, _ => false

/-- Whether two arrays have equal elements. -/
def sameItems [DecidableEq τ] : List (Value τ) → List (Value τ) → Bool
  | [], [] => true
  | v :: vs, w :: ws => v.same w && sameItems vs ws
  | _, _ => false

/-- Whether two hashes have the same keys with equal values. -/
def sameEntries [DecidableEq τ] : List (Key × Value τ) → List (Key × Value τ) → Bool
  | [], [] => true
  | (k, v) :: es, (l, w) :: fs => k == l && v.same w && sameEntries es fs
  | _, _ => false

end

end ClosureLang
