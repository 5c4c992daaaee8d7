/-!
# Syntax trees

A program is a list of statements. Expressions and statements are trees over each other: an `if`
and a function literal hold blocks, which are lists of statements.

The trees have a parameter `τ`, the type of the tags that function literals carry. The parser puts
nothing there (`Unit`). Where it matters which literal a function came from, the literals of a
program are given distinct tags first (`ClosureLang.Tree.Tagging`).

Main statement: `Expr.same_iff` and its companions say that the comparison of trees decides
equality, which gives the instances of `DecidableEq`.
-/

namespace ClosureLang

/-- Operators written before their operand. -/
inductive UnaryOp where
  | negate | not
  deriving DecidableEq, Repr, Inhabited

/-- The text of a unary operator. -/
def UnaryOp.symbol : UnaryOp → String
  | negate => "-"
  | not => "!"

/-- Operators written between their operands. -/
inductive BinaryOp where
  | add | sub | less | greater | equal | notEqual | mul | div | power
  deriving DecidableEq, Repr, Inhabited

/-- The text of a binary operator. -/
def BinaryOp.symbol : BinaryOp → String
  | add => "+"
  | sub => "-"
  | less => "<"
  | greater => ">"
  | equal => "=="
  | notEqual => "!="
  | mul => "*"
  | div => "/"
  | power => "**"

mutual

/-- Expressions. -/
inductive Expr (τ : Type) where
  | name (n : String)
  | int (n : Int64)
  | text (s : String)
  | bool (b : Bool)
  | array (items : List (Expr τ))
  | hash (pairs : List (Expr τ × Expr τ))
  | unary (op : UnaryOp) (operand : Expr τ)
  | binary (op : BinaryOp) (left right : Expr τ)
  | cond (test : Expr τ) (yes : List (Stmt τ)) (no : Option (List (Stmt τ)))
  | fn (tag : τ) (params : List String) (body : List (Stmt τ))
  | call (callee : Expr τ) (args : List (Expr τ))
  | index (target key : Expr τ)

/-- Statements: a binding, a return, or an expression on its own. -/
inductive Stmt (τ : Type) where
  | bind (name : String) (value : Expr τ)
  | ret (value : Expr τ)
  | expr (value : Expr τ)

end

instance {τ : Type} : Inhabited (Expr τ) := ⟨.bool false⟩
instance {τ : Type} : Inhabited (Stmt τ) := ⟨.expr default⟩

/-- The statements between two braces. -/
abbrev Block (τ : Type) := List (Stmt τ)

/-- A whole program. -/
abbrev Program (τ : Type) := List (Stmt τ)

/-! ## Equality of trees -/

section Same

variable {τ : Type} [DecidableEq τ]

mutual

/-- Whether two expressions are the same tree. -/
def Expr.same : Expr τ → Expr τ → Bool
  | .name m, .name n => m == n
  | .int m, .int n => m == n
  | .text s, .text t => s == t
  | .bool a, .bool b => a == b
  | .array xs, .array ys => sameExprs xs ys
  | .hash ps, .hash qs => samePairs ps qs
  | .unary o x, .unary p y => o == p && x.same y
  | .binary o x x', .binary p y y' => o == p && x.same y && x'.same y'
  | .cond c y n, .cond c' y' n' =>
    c.same c' && sameBlocks y y' &&
      (match n, n' with
      | none, none => true
      | some b, some b' => sameBlocks b b'
      | _, _ => false)
  | .fn t ps b, .fn t' ps' b' => decide (t = t') && ps == ps' && sameBlocks b b'
  | .call f xs, .call g ys => f.same g && sameExprs xs ys
  | .index x i, .index y j => x.same y && i.same j
  | _, _ => false

/-- Whether two lists of expressions are the same. -/
def sameExprs : List (Expr τ) → List (Expr τ) → Bool
  | [], [] => true
  | x :: xs, y :: ys => x.same y && sameExprs xs ys
  | _, _ => false

/-- Whether two lists of pairs of expressions are the same. -/
def samePairs : List (Expr τ × Expr τ) → List (Expr τ × Expr τ) → Bool
  | [], [] => true
  | (k, v) :: ps, (k', v') :: qs => k.same k' && v.same v' && samePairs ps qs
  | _, _ => false

/-- Whether two blocks are the same. -/
def sameBlocks : List (Stmt τ) → List (Stmt τ) → Bool
  | [], [] => true
  | s :: b, s' :: b' => s.same s' && sameBlocks b b'
  | _, _ => false

/-- Whether two statements are the same tree. -/
def Stmt.same : Stmt τ → Stmt τ → Bool
  | .bind n x, .bind m y => n == m && x.same y
  | .ret x, .ret y => x.same y
  | .expr x, .expr y => x.same y
  | _, _ => false

end

mutual

theorem Expr.same_iff : ∀ a b : Expr τ, a.same b = true ↔ a = b
  | .name _, b => by cases b <;> simp [Expr.same]
  | .int _, b => by cases b <;> simp [Expr.same]
  | .text _, b => by cases b <;> simp [Expr.same]
  | .bool _, b => by cases b <;> simp [Expr.same]
  | .array xs, b => by cases b <;> simp [Expr.same, sameExprs_iff xs]
  | .hash ps, b => by cases b <;> simp [Expr.same, samePairs_iff ps]
  | .unary _ x, b => by cases b <;> simp [Expr.same, Expr.same_iff x]
  | .binary _ x x', b => by
    cases b <;> simp [Expr.same, Expr.same_iff x, Expr.same_iff x', and_assoc]
  | .cond c y none, b => by
    cases b with
    | cond c' y' n' => cases n' <;> simp [Expr.same, Expr.same_iff c, sameBlocks_iff y]
    | _ => simp [Expr.same]
  | .cond c y (some n), b => by
    cases b with
    | cond c' y' n' =>
      cases n' <;> simp [Expr.same, Expr.same_iff c, sameBlocks_iff y, sameBlocks_iff n, and_assoc]
    | _ => simp [Expr.same]
  | .fn _ _ y, b => by cases b <;> simp [Expr.same, sameBlocks_iff y, and_assoc]
  | .call f xs, b => by cases b <;> simp [Expr.same, Expr.same_iff f, sameExprs_iff xs]
  | .index x i, b => by cases b <;> simp [Expr.same, Expr.same_iff x, Expr.same_iff i]

theorem sameExprs_iff : ∀ xs ys : List (Expr τ), sameExprs xs ys = true ↔ xs = ys
  | [], ys => by cases ys <;> simp [sameExprs]
  | x :: xs, ys => by cases ys <;> simp [sameExprs, Expr.same_iff x, sameExprs_iff xs]

theorem samePairs_iff : ∀ ps qs : List (Expr τ × Expr τ), samePairs ps qs = true ↔ ps = qs
  | [], qs => by cases qs <;> simp [samePairs]
  | (k, v) :: ps, qs => by
    cases qs with
    | nil => simp [samePairs]
    | cons q qs =>
      obtain ⟨k', v'⟩ := q
      simp [samePairs, Expr.same_iff k, Expr.same_iff v, samePairs_iff ps]

theorem sameBlocks_iff : ∀ b c : List (Stmt τ), sameBlocks b c = true ↔ b = c
  | [], c => by cases c <;> simp [sameBlocks]
  | s :: b, c => by cases c <;> simp [sameBlocks, Stmt.same_iff s, sameBlocks_iff b]

theorem Stmt.same_iff : ∀ s t : Stmt τ, s.same t = true ↔ s = t
  | .bind _ x, t => by cases t <;> simp [Stmt.same, Expr.same_iff x]
  | .ret x, t => by cases t <;> simp [Stmt.same, Expr.same_iff x]
  | .expr x, t => by cases t <;> simp [Stmt.same, Expr.same_iff x]

end

instance : DecidableEq (Expr τ) := fun a b => decidable_of_iff _ (Expr.same_iff a b)
instance : DecidableEq (Stmt τ) := fun s t => decidable_of_iff _ (Stmt.same_iff s t)

end Same

end ClosureLang
