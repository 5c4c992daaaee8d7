import ClosureLang.Tree.Basic

/-!
# Tagging function literals

`tagBlock` numbers the function literals of a program in the order in which they are written, from a
given number on, and gives the first number that is still free. Two programs tagged one after the
other share no number, so a tag names one literal of one program.
-/

namespace ClosureLang

variable {τ : Type}

mutual

/-- Numbers the function literals of an expression from `n` on. -/
def Expr.tag : Expr τ → Nat → Expr Nat × Nat
  | .name s, n => (.name s, n)
  | .int k, n => (.int k, n)
  | .text s, n => (.text s, n)
  | .bool b, n => (.bool b, n)
  | .array items, n =>
    let (items, n) := tagExprs items n
    (.array items, n)
  | .hash pairs, n =>
    let (pairs, n) := tagPairs pairs n
    (.hash pairs, n)
  | .unary op x, n =>
    let (x, n) := x.tag n
    (.unary op x, n)
  | .binary op x y, n =>
    let (x, n) := x.tag n
    let (y, n) := y.tag n
    (.binary op x y, n)
  | .cond c yes no, n =>
    let (c, n) := c.tag n
    let (yes, n) := tagBlock yes n
    match no with
    | some b =>
      let (b, n) := tagBlock b n
      (.cond c yes (some b), n)
    | none => (.cond c yes none, n)
  | .fn _ params body, n =>
    let (body, m) := tagBlock body (n + 1)
    (.fn n params body, m)
  | .call f args, n =>
    let (f, n) := f.tag n
    let (args, n) := tagExprs args n
    (.call f args, n)
  | .index x i, n =>
    let (x, n) := x.tag n
    let (i, n) := i.tag n
    (.index x i, n)

/-- Numbers the function literals of some expressions from `n` on. -/
def tagExprs : List (Expr τ) → Nat → List (Expr Nat) × Nat
  | [], n => ([], n)
  | x :: xs, n =>
    let (x, n) := x.tag n
    let (xs, n) := tagExprs xs n
    (x :: xs, n)

/-- Numbers the function literals of some pairs from `n` on. -/
def tagPairs : List (Expr τ × Expr τ) → Nat → List (Expr Nat × Expr Nat) × Nat
  | [], n => ([], n)
  | (k, v) :: ps, n =>
    let (k, n) := k.tag n
    let (v, n) := v.tag n
    let (ps, n) := tagPairs ps n
    ((k, v) :: ps, n)

/-- Numbers the function literals of a block or a program from `n` on. -/
def tagBlock : List (Stmt τ) → Nat → List (Stmt Nat) × Nat
  | [], n => ([], n)
  | s :: b, n =>
    let (s, n) := s.tag n
    let (b, n) := tagBlock b n
    (s :: b, n)

/-- Numbers the function literals of a statement from `n` on. -/
def Stmt.tag : Stmt τ → Nat → Stmt Nat × Nat
  | .bind s x, n =>
    let (x, n) := x.tag n
    (.bind s x, n)
  | .ret x, n =>
    let (x, n) := x.tag n
    (.ret x, n)
  | .expr x, n =>
    let (x, n) := x.tag n
    (.expr x, n)

end

end ClosureLang
