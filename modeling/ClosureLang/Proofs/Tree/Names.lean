import ClosureLang.Tree.Basic

/-!
# Names in trees

All names that occur in a tree: those that are looked up, those that `let` statements bind and the
parameters of functions, inside function literals as well as outside. What a tree means can only
depend on the bindings of these names. The names that are looked up are also collected on their own.
-/

namespace ClosureLang

variable {τ : Type}

mutual

/-- The names in an expression. -/
def Expr.names : Expr τ → List String
  | .name n => [n]
  | .int _ => []
  | .text _ => []
  | .bool _ => []
  | .array items => namesOfExprs items
  | .hash pairs => namesOfPairs pairs
  | .unary _ x => x.names
  | .binary _ x y => x.names ++ y.names
  | .cond c yes none => c.names ++ namesOfBlock yes
  | .cond c yes (some no) => c.names ++ (namesOfBlock yes ++ namesOfBlock no)
  | .fn _ params body => params ++ namesOfBlock body
  | .call f args => f.names ++ namesOfExprs args
  | .index x i => x.names ++ i.names

/-- The names in some expressions. -/
def namesOfExprs : List (Expr τ) → List String
  | [] => []
  | x :: xs => x.names ++ namesOfExprs xs

/-- The names in the pairs of a hash literal. -/
def namesOfPairs : List (Expr τ × Expr τ) → List String
  | [] => []
  | (k, v) :: ps => k.names ++ (v.names ++ namesOfPairs ps)

/-- The names in a block or a program. -/
def namesOfBlock : List (Stmt τ) → List String
  | [] => []
  | s :: b => s.names ++ namesOfBlock b

/-- The names in a statement. -/
def Stmt.names : Stmt τ → List String
  | .bind n x => n :: x.names
  | .ret x => x.names
  | .expr x => x.names

end

/-! ## Names that are looked up -/

mutual

/-- The names that an expression looks up, inside function literals as well as outside. -/
def Expr.lookups : Expr τ → List String
  | .name n => [n]
  | .int _ => []
  | .text _ => []
  | .bool _ => []
  | .array items => lookupsOfExprs items
  | .hash pairs => lookupsOfPairs pairs
  | .unary _ x => x.lookups
  | .binary _ x y => x.lookups ++ y.lookups
  | .cond c yes none => c.lookups ++ lookupsOfBlock yes
  | .cond c yes (some no) => c.lookups ++ (lookupsOfBlock yes ++ lookupsOfBlock no)
  | .fn _ _ body => lookupsOfBlock body
  | .call f args => f.lookups ++ lookupsOfExprs args
  | .index x i => x.lookups ++ i.lookups

/-- The names that some expressions look up. -/
def lookupsOfExprs : List (Expr τ) → List String
  | [] => []
  | x :: xs => x.lookups ++ lookupsOfExprs xs

/-- The names that the pairs of a hash literal look up. -/
def lookupsOfPairs : List (Expr τ × Expr τ) → List String
  | [] => []
  | (k, v) :: ps => k.lookups ++ (v.lookups ++ lookupsOfPairs ps)

/-- The names that a block or a program looks up. -/
def lookupsOfBlock : List (Stmt τ) → List String
  | [] => []
  | s :: b => s.lookups ++ lookupsOfBlock b

/-- The names that a statement looks up. -/
def Stmt.lookups : Stmt τ → List String
  | .bind _ x => x.lookups
  | .ret x => x.lookups
  | .expr x => x.lookups

end

end ClosureLang
