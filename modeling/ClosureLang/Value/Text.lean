import ClosureLang.Tree.Text
import ClosureLang.Value.Basic

/-!
# Display of values

The text that a program's result is printed as. Strings are printed bare, also inside arrays and
hashes, and a function is printed with the canonical text of its body.
-/

namespace ClosureLang

variable {τ : Type}

/-- The text of a key: that of the value it stands for. -/
def Key.display : Key → String
  | int n => n.toInt.repr
  | bool b => if b then "true" else "false"
  | text s => s

mutual

/-- The text of a value. -/
def Value.display : Value τ → String
  | .null => "null"
  | .int n => n.toInt.repr
  | .bool b => if b then "true" else "false"
  | .text s => s
  | .array items => "[" ++ ", ".intercalate (displayItems items) ++ "]"
  | .hash entries => "\x7b" ++ ", ".intercalate (displayEntries entries) ++ "\x7d"
  | .closure f =>
    "fn(" ++ ", ".intercalate f.params ++ ") \x7b " ++ renderBlock f.body ++ " \x7d"
  | .builtin _ => "builtin function"

/-- The texts of the elements of an array. -/
def displayItems : List (Value τ) → List String
  | [] => []
  | v :: vs => v.display :: displayItems vs

/-- The texts of the entries of a hash. -/
def displayEntries : List (Key × Value τ) → List String
  | [] => []
  | (k, v) :: es => (k.display ++ ": " ++ v.display) :: displayEntries es

end

end ClosureLang
