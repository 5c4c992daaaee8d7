import ClosureLang.Token.Scanner
import ClosureLang.Tree.Basic

/-!
# Shapes of trees

A tree is well formed if it can be written: its names are words that are not keywords, its integers
are not negative, and its strings hold no quote. A tree is plain if it has no string, no conditional
and no function literal in it; the canonical text of a plain tree shows all that the tree holds. A
tree is blockless if it has no conditional and no function literal in it, which are what blocks stand
in.
-/

namespace ClosureLang

variable {τ : Type}

/-- Names: words of letters that are not keywords. -/
def isName (s : String) : Bool :=
  !s.toList.isEmpty && s.toList.all isLetter && wordKind s == .ident

mutual

/-- Whether an expression can be written. -/
def Expr.wellFormed : Expr τ → Bool
  | .name n => isName n
  | .int k => decide (0 ≤ k.toInt)
  | .text s => s.toList.all (· != '"')
  | .bool _ => true
  | .array items => wellFormedExprs items
  | .hash pairs => wellFormedPairs pairs
  | .unary _ x => x.wellFormed
  | .binary _ x y => x.wellFormed && y.wellFormed
  | .cond c yes no =>
    c.wellFormed && wellFormedBlock yes &&
      (match no with
      | some b => wellFormedBlock b
      | none => true)
  | .fn _ params body => params.all isName && wellFormedBlock body
  | .call f args => f.wellFormed && wellFormedExprs args
  | .index x i => x.wellFormed && i.wellFormed

/-- Whether some expressions can be written. -/
def wellFormedExprs : List (Expr τ) → Bool
  | [] => true
  | x :: xs => x.wellFormed && wellFormedExprs xs

/-- Whether the pairs of a hash literal can be written. -/
def wellFormedPairs : List (Expr τ × Expr τ) → Bool
  | [] => true
  | (k, v) :: ps => k.wellFormed && v.wellFormed && wellFormedPairs ps

/-- Whether a block or a program can be written. -/
def wellFormedBlock : List (Stmt τ) → Bool
  | [] => true
  | s :: b => s.wellFormed && wellFormedBlock b

/-- Whether a statement can be written. -/
def Stmt.wellFormed : Stmt τ → Bool
  | .bind n x => isName n && x.wellFormed
  | .ret x => x.wellFormed
  | .expr x => x.wellFormed

end

mutual

/-- Whether an expression has no string, conditional or function literal in it. -/
def Expr.plain : Expr τ → Bool
  | .name _ => true
  | .int _ => true
  | .text _ => false
  | .bool _ => true
  | .array items => plainExprs items
  | .hash pairs => plainPairs pairs
  | .unary _ x => x.plain
  | .binary _ x y => x.plain && y.plain
  | .cond _ _ _ => false
  | .fn _ _ _ => false
  | .call f args => f.plain && plainExprs args
  | .index x i => x.plain && i.plain

/-- Whether some expressions are plain. -/
def plainExprs : List (Expr τ) → Bool
  | [] => true
  | x :: xs => x.plain && plainExprs xs

/-- Whether the pairs of a hash literal are plain. -/
def plainPairs : List (Expr τ × Expr τ) → Bool
  | [] => true
  | (k, v) :: ps => k.plain && v.plain && plainPairs ps

end

/-- Whether the expression of a statement is plain. -/
def Stmt.plain : Stmt τ → Bool
  | .bind _ x => x.plain
  | .ret x => x.plain
  | .expr x => x.plain

mutual

/-- Whether an expression has no conditional and no function literal in it. -/
def Expr.blockless : Expr τ → Bool
  | .name _ => true
  | .int _ => true
  | .text _ => true
  | .bool _ => true
  | .array items => blocklessExprs items
  | .hash pairs => blocklessPairs pairs
  | .unary _ x => x.blockless
  | .binary _ x y => x.blockless && y.blockless
  | .cond _ _ _ => false
  | .fn _ _ _ => false
  | .call f args => f.blockless && blocklessExprs args
  | .index x i => x.blockless && i.blockless

/-- Whether some expressions are blockless. -/
def blocklessExprs : List (Expr τ) → Bool
  | [] => true
  | x :: xs => x.blockless && blocklessExprs xs

/-- Whether the pairs of a hash literal are blockless. -/
def blocklessPairs : List (Expr τ × Expr τ) → Bool
  | [] => true
  | (k, v) :: ps => k.blockless && v.blockless && blocklessPairs ps

end

/-- Whether the expression of a statement is blockless. -/
def Stmt.blockless : Stmt τ → Bool
  | .bind _ x => x.blockless
  | .ret x => x.blockless
  | .expr x => x.blockless

end ClosureLang
