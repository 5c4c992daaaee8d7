import ClosureLang.Parse.Cursor
import ClosureLang.Parse.Precedence

/-!
# Productions

One function per construct of the language. A production starts on the first token of its construct
and ends on the last one. If it fails it has recorded why and gives nothing in place of a tree, but
the constructs around it still read their own tokens, so that one mistake inside an expression is
reported once.

## Termination

Constructs nest, so the productions call each other. Their first argument bounds how deep these
calls may go; a production that would go deeper has no result at all (`none` on the outside).
`ClosureLang.Parse.Depth` shows that eight calls for each token that is left and a few more are
always enough, and `ClosureLang.Parse.Program` gives the productions without the bound.
-/

namespace ClosureLang

/-- The integer that some digits write, if it fits 64 bits with a sign. -/
def readInteger? (digits : String) : Option Int64 :=
  let n := Nat.ofDigitChars 10 digits.toList 0
  if n < 9223372036854775808 then some (Int64.ofNat n) else none

/-- All of the values, if none is missing. -/
def allSome {α : Type} : List (Option α) → Option (List α)
  | [] => some []
  | x :: xs =>
    match x, allSome xs with
    | some a, some as => some (a :: as)
    | _, _ => none

/-- Both values, if neither is missing. -/
def both {α β : Type} : Option α → Option β → Option (α × β)
  | some a, some b => some (a, b)
  | _, _ => none

namespace Production

/-! ## Parameters -/

/-- The name on which the cursor stands, and the names that follow it after commas. -/
def names : Nat → Cursor → Option (Option (List String) × Cursor)
  | 0, _ => none
  | n + 1, p =>
    if p.current.kind = .ident then
      if p.peek.kind = .comma then do
        let (rest, q) ← names n p.advance.advance
        some (rest.map (p.current.literal :: ·), q)
      else some (some [p.current.literal], p)
    else some (none, p.record (.unexpected .ident p.current.kind))

/-- The parameters of a function literal, from the opening parenthesis on. -/
def parameters (n : Nat) (p : Cursor) : Option (Option (List String) × Cursor) :=
  if p.peek.kind = .rparen then some (some [], p.advance)
  else do
    let (params, p) ← names n p.advance
    match params with
    | none => some (none, p)
    | some params =>
      match p.expect .rparen with
      | (false, p) => some (none, p)
      | (true, p) => some (some params, p)

/-! ## Expressions and statements -/

mutual

/-- An operand and the operators after it that bind tighter than `min`. -/
def expression : Nat → Precedence → Cursor → Option (Option (Expr Unit) × Cursor)
  | 0, _, _ => none
  | n + 1, min, p =>
    match p.current.kind.lead? with
    | none => some (none, p.record (.noOperand p.current.kind))
    | some lead => do
      let (left, p) ← operand n lead p
      operators n min left p

/-- The operand that starts with the current token. -/
def operand : Nat → Lead → Cursor → Option (Option (Expr Unit) × Cursor)
  | 0, _, _ => none
  | n + 1, lead, p =>
    match lead with
    | .name => some (some (.name p.current.literal), p)
    | .integer =>
      match readInteger? p.current.literal with
      | some k => some (some (.int k), p)
      | none => some (none, p.record (.badInteger p.current.literal))
    | .text => some (some (.text p.current.literal), p)
    | .truth b => some (some (.bool b), p)
    | .unary op => do
      let (x, p) ← expression n .unary p.advance
      some (x.map (.unary op), p)
    | .group => do
      let (x, p) ← expression n .lowest p.advance
      match p.expect .rparen with
      | (false, p) => some (none, p)
      | (true, p) => some (x, p)
    | .array => do
      let (xs, p) ← elements n .rbracket p
      some (xs.map .array, p)
    | .hash => do
      let (ps, p) ← pairs n p
      some ((ps.bind allSome).map .hash, p)
    | .conditional => conditional n p
    | .function => function n p

/-- What the operators that bind tighter than `min` make of the operand before them. -/
def operators : Nat → Precedence → Option (Expr Unit) → Cursor →
    Option (Option (Expr Unit) × Cursor)
  | 0, _, _, _ => none
  | n + 1, min, left, p =>
    if min < p.peek.kind.precedence then
      match p.peek.kind.follow? with
      | none => some (left, p)
      | some follow => do
        let (left, p) ← extend n follow left p.advance
        operators n min left p
    else some (left, p)

/-- One operator, argument list or index after an operand. -/
def extend : Nat → Follow → Option (Expr Unit) → Cursor → Option (Option (Expr Unit) × Cursor)
  | 0, _, _, _ => none
  | n + 1, follow, left, p =>
    match follow with
    | .operation op => do
      let (right, q) ← expression n p.current.kind.precedence p.advance
      some ((both left right).map fun (x, y) => .binary op x y, q)
    | .call => do
      let (args, p) ← elements n .rparen p
      some ((both left args).map fun (f, xs) => .call f xs, p)
    | .index => do
      let (key, p) ← expression n .lowest p.advance
      match p.expect .rbracket with
      | (false, p) => some (none, p)
      | (true, p) => some ((both left key).map fun (x, i) => .index x i, p)

/-- Expressions between commas, from the opening delimiter to the closing one. -/
def elements : Nat → TokenKind → Cursor → Option (Option (List (Expr Unit)) × Cursor)
  | 0, _, _ => none
  | n + 1, close, p =>
    if p.peek.kind = close then some (some [], p.advance)
    else do
      let (first, p) ← expression n .lowest p.advance
      let (rest, p) ← moreElements n p
      match p.expect close with
      | (false, p) => some (none, p)
      | (true, p) => some (allSome (first :: rest), p)

/-- The expressions that follow after commas. -/
def moreElements : Nat → Cursor → Option (List (Option (Expr Unit)) × Cursor)
  | 0, _ => none
  | n + 1, p =>
    if p.peek.kind = .comma then do
      let (x, p) ← expression n .lowest p.advance.advance
      let (rest, p) ← moreElements n p
      some (x :: rest, p)
    else some ([], p)

/-- The pairs of a hash literal, from the opening brace or the comma before them to the closing
brace. Without a colon or a comma where one is due there are no pairs at all. -/
def pairs : Nat → Cursor → Option (Option (List (Option (Expr Unit × Expr Unit))) × Cursor)
  | 0, _ => none
  | n + 1, p =>
    if p.peek.kind = .rbrace then some (some [], p.advance)
    else do
      let (key, p) ← expression n .lowest p.advance
      match p.expect .colon with
      | (false, p) => some (none, p)
      | (true, p) => do
        let (value, p) ← expression n .lowest p.advance
        if p.peek.kind = .rbrace then some (some [both key value], p.advance)
        else
          match p.expect .comma with
          | (false, p) => some (none, p)
          | (true, p) => do
            let (rest, p) ← pairs n p
            some (rest.map (both key value :: ·), p)

/-- An `if` with its block and the block after `else`, if there is one. -/
def conditional : Nat → Cursor → Option (Option (Expr Unit) × Cursor)
  | 0, _ => none
  | n + 1, p => do
    let (test, p) ← expression n .lowest p.advance
    match p.expect .lbrace with
    | (false, p) => some (none, p)
    | (true, p) => do
      let (yes, p) ← statements n true p.advance
      if p.peek.kind = .elseWord then
        match p.advance.expect .lbrace with
        | (false, p) => some (none, p)
        | (true, p) => do
          let (no, p) ← statements n true p.advance
          some (test.map (.cond · yes (some no)), p)
      else some (test.map (.cond · yes none), p)

/-- A function literal. -/
def function : Nat → Cursor → Option (Option (Expr Unit) × Cursor)
  | 0, _ => none
  | n + 1, p =>
    match p.expect .lparen with
    | (false, p) => some (none, p)
    | (true, p) => do
      let (params, p) ← parameters n p
      match params with
      | none => some (none, p)
      | some params =>
        match p.expect .lbrace with
        | (false, p) => some (none, p)
        | (true, p) => do
          let (body, p) ← statements n true p.advance
          some (some (.fn () params body), p)

/-- Statements up to the end of the source, in a block up to the closing brace if that comes first.
Statements that fail are left out. -/
def statements : Nat → Bool → Cursor → Option (List (Stmt Unit) × Cursor)
  | 0, _, _ => none
  | n + 1, inBlock, p =>
    if p.current.kind = .eof ∨ inBlock = true ∧ p.current.kind = .rbrace then some ([], p)
    else do
      let (s, p) ← statement n p
      let (rest, p) ← statements n inBlock p.advance
      some (s.toList ++ rest, p)

/-- One statement with the semicolon after it, if there is one. -/
def statement : Nat → Cursor → Option (Option (Stmt Unit) × Cursor)
  | 0, _ => none
  | n + 1, p =>
    match p.current.kind with
    | .letWord =>
      match p.expect .ident with
      | (false, p) => some (none, p)
      | (true, p) =>
        match p.expect .assign with
        | (false, q) => some (none, q)
        | (true, q) => do
          let (x, q) ← expression n .lowest q.advance
          some (x.map (.bind p.current.literal), q.skipTerminator)
    | .returnWord => do
      let (x, p) ← expression n .lowest p.advance
      some (x.map .ret, p.skipTerminator)
    | _ => do
      let (x, p) ← expression n .lowest p
      some (x.map .expr, p.skipTerminator)

end

end Production

end ClosureLang
