import ClosureLang.Tree.Basic

/-!
# Canonical text of trees

Unary and binary operations and index expressions are written in parentheses, statements follow
each other without a separator, and a string is written as its bare text. Tags are not written.
-/

namespace ClosureLang

variable {τ : Type}

mutual

/-- The canonical text of an expression. -/
def Expr.render : Expr τ → String
  | .name n => n
  | .int n => n.toInt.repr
  | .text s => s
  | .bool b => if b then "true" else "false"
  | .array items => "[" ++ ", ".intercalate (renderExprs items) ++ "]"
  | .hash pairs => "\x7b" ++ ", ".intercalate (renderPairs pairs) ++ "\x7d"
  | .unary op x => "(" ++ op.symbol ++ x.render ++ ")"
  | .binary op x y => "(" ++ x.render ++ " " ++ op.symbol ++ " " ++ y.render ++ ")"
  | .cond c yes no =>
    "if" ++ c.render ++ " " ++ renderBlock yes ++
      (match no with
      | some b => "else " ++ renderBlock b
      | none => "")
  | .fn _ params body => "fn(" ++ ", ".intercalate params ++ ") " ++ renderBlock body
  | .call f args => f.render ++ "(" ++ ", ".intercalate (renderExprs args) ++ ")"
  | .index x i => "(" ++ x.render ++ "[" ++ i.render ++ "])"

/-- The canonical texts of some expressions. -/
def renderExprs : List (Expr τ) → List String
  | [] => []
  | x :: xs => x.render :: renderExprs xs

/-- The canonical texts of the pairs of a hash literal. -/
def renderPairs : List (Expr τ × Expr τ) → List String
  | [] => []
  | (k, v) :: ps => (k.render ++ ":" ++ v.render) :: renderPairs ps

/-- The canonical text of a block or a program: the texts of its statements one after the other. -/
def renderBlock : List (Stmt τ) → String
  | [] => ""
  | s :: b => s.render ++ renderBlock b

/-- The canonical text of a statement. -/
def Stmt.render : Stmt τ → String
  | .bind n x => "let " ++ n ++ " = " ++ x.render ++ ";"
  | .ret x => "return " ++ x.render ++ ";"
  | .expr x => x.render

end

/-- The canonical text of a program. -/
def Program.render (p : Program τ) : String := renderBlock p

end ClosureLang
