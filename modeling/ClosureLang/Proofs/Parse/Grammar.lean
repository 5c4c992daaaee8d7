import ClosureLang.Parse.Precedence

/-!
# The grammar

The language as a grammar over tokens, without a parser. A derivation `Expression l ts x rest` says
that the tokens `ts` begin with an expression of level `l`, that its tree is `x`, and that `rest`
follows it; the other symbols are read in the same way. What follows has to be said because one
rule looks at it: the closing brace of a block may be missing where the input ends.

```
Program    = Statement*
Statement  = ( let NAME = Expression | return Expression | Expression ) [;]
Equality   = [ Equality (== | !=) ] Comparison
Comparison = [ Comparison (< | >) ] Sum
Sum        = [ Sum (+ | -) ] Product
Product    = [ Product (* | / | **) ] Unary
Unary      = (- | !) Unary | Call
Call       = Call ( [Expression, …] ) | Call [ Expression ] | Primary
```

An expression on its own is one of the loosest level, `Equality`. A statement without a semicolon
is not followed by a statement that starts with `-`, `(` or `[`, since these tokens go on with an
expression.
-/

namespace ClosureLang.Grammar

/-! ## Levels -/

/-- The level that binds one step tighter. -/
def tighter? : Precedence → Option Precedence
  | .lowest => some .equality
  | .equality => some .comparison
  | .comparison => some .sum
  | .sum => some .product
  | .product => some .unary
  | .unary => some .call
  | .call => none

/-- The binary operators of a level. -/
def binaryOperators : Precedence → List (TokenKind × BinaryOp)
  | .equality => [(.equal, .equal), (.notEqual, .notEqual)]
  | .comparison => [(.less, .less), (.greater, .greater)]
  | .sum => [(.plus, .add), (.minus, .sub)]
  | .product => [(.star, .mul), (.slash, .div), (.power, .power)]
  | _ => []

/-- The operators that stand before their operand. -/
def unaryOperators : List (TokenKind × UnaryOp) := [(.minus, .negate), (.bang, .not)]

/-- The kind of the first of some tokens, where no token stands for the end of the input. -/
def firstKind : List Token → TokenKind
  | [] => .eof
  | t :: _ => t.kind

@[simp] theorem firstKind_nil : firstKind [] = .eof := rfl

@[simp] theorem firstKind_cons (t : Token) (ts : List Token) : firstKind (t :: ts) = t.kind := rfl

/-- A kind other than that of the end is the kind of a token that is there. -/
theorem exists_cons_of_firstKind {ts : List Token} {k : TokenKind} (h : firstKind ts = k)
    (hk : k ≠ .eof) : ∃ t us, ts = t :: us ∧ t.kind = k := by
  cases ts with
  | nil => exact absurd h.symm hk
  | cons t us => exact ⟨t, us, rfl, h⟩

/-- The kinds with which a statement can start and which can also go on with an expression. -/
def ambiguous : List TokenKind := [.minus, .lparen, .lbracket]

/-! ## Parameters -/

/-- Names with commas between them. -/
inductive Names : List Token → List String → List Token → Prop where
  | one {t rest} : t.kind = .ident → Names (t :: rest) [t.literal] rest
  | more {t c ts ns rest} : t.kind = .ident → c.kind = .comma → Names ts ns rest →
      Names (t :: c :: ts) (t.literal :: ns) rest

/-- The parameters of a function literal and the parenthesis that closes them. -/
inductive Parameters : List Token → List String → List Token → Prop where
  | empty {t rest} : t.kind = .rparen → Parameters (t :: rest) [] rest
  | filled {t ts ns rest} : Names ts ns (t :: rest) → t.kind = .rparen → Parameters ts ns rest

/-! ## Expressions and statements -/

mutual

/-- Expressions of a level. -/
inductive Expression : Precedence → List Token → Expr Unit → List Token → Prop where
  /-- A level holds all that binds tighter. -/
  | tighter {l m ts x rest} : tighter? l = some m → Expression m ts x rest → Expression l ts x rest
  /-- An operation takes its left operand from its own level and its right one from the next. -/
  | binary {l m op t ts us x y rest} : tighter? l = some m → (t.kind, op) ∈ binaryOperators l →
      Expression l ts x (t :: us) → Expression m us y rest → Expression l ts (.binary op x y) rest
  | unary {op t ts x rest} : (t.kind, op) ∈ unaryOperators → Expression .unary ts x rest →
      Expression .unary (t :: ts) (.unary op x) rest
  | call {t ts us f xs rest} : Expression .call ts f (t :: us) → t.kind = .lparen →
      Elements .rparen us xs rest → Expression .call ts (.call f xs) rest
  | index {t u ts us x i rest} : Expression .call ts x (t :: us) → t.kind = .lbracket →
      Expression .equality us i (u :: rest) → u.kind = .rbracket →
      Expression .call ts (.index x i) rest
  | primary {ts x rest} : Primary ts x rest → Expression .call ts x rest

/-- Expressions that no operator stands in, other than between delimiters. -/
inductive Primary : List Token → Expr Unit → List Token → Prop where
  | name {t rest} : t.kind = .ident → Primary (t :: rest) (.name t.literal) rest
  /-- The digits write a number that a signed 64-bit integer can hold. -/
  | int {t k rest} : t.kind = .int → k.toInt = (Nat.ofDigitChars 10 t.literal.toList 0 : Int) →
      Primary (t :: rest) (.int k) rest
  | text {t rest} : t.kind = .string → Primary (t :: rest) (.text t.literal) rest
  | yes {t rest} : t.kind = .trueWord → Primary (t :: rest) (.bool true) rest
  | no {t rest} : t.kind = .falseWord → Primary (t :: rest) (.bool false) rest
  | group {t u ts x rest} : t.kind = .lparen → Expression .equality ts x (u :: rest) →
      u.kind = .rparen → Primary (t :: ts) x rest
  | array {t ts xs rest} : t.kind = .lbracket → Elements .rbracket ts xs rest →
      Primary (t :: ts) (.array xs) rest
  | hash {t ts ps rest} : t.kind = .lbrace → Entries ts ps rest → Primary (t :: ts) (.hash ps) rest
  | cond {t ts us x b rest} : t.kind = .ifWord → Expression .equality ts x us → Braced us b rest →
      Primary (t :: ts) (.cond x b none) rest
  | condElse {t u ts us vs x b c rest} : t.kind = .ifWord → Expression .equality ts x us →
      Braced us b (u :: vs) → u.kind = .elseWord → Braced vs c rest →
      Primary (t :: ts) (.cond x b (some c)) rest
  | fn {t u ts us ns b rest} : t.kind = .fnWord → u.kind = .lparen → Parameters ts ns us →
      Braced us b rest → Primary (t :: u :: ts) (.fn () ns b) rest

/-- Expressions with commas between them. -/
inductive Expressions : List Token → List (Expr Unit) → List Token → Prop where
  | one {ts x rest} : Expression .equality ts x rest → Expressions ts [x] rest
  | more {c ts us x xs rest} : Expression .equality ts x (c :: us) → c.kind = .comma →
      Expressions us xs rest → Expressions ts (x :: xs) rest

/-- The elements of an array or the arguments of a call, and the token that closes them. -/
inductive Elements : TokenKind → List Token → List (Expr Unit) → List Token → Prop where
  | empty {close t rest} : t.kind = close → Elements close (t :: rest) [] rest
  | filled {close t ts xs rest} : Expressions ts xs (t :: rest) → t.kind = close →
      Elements close ts xs rest

/-- Pairs with commas between them. -/
inductive Pairs : List Token → List (Expr Unit × Expr Unit) → List Token → Prop where
  | one {c ts us k v rest} : Expression .equality ts k (c :: us) → c.kind = .colon →
      Expression .equality us v rest → Pairs ts [(k, v)] rest
  | more {c d ts us vs k v ps rest} : Expression .equality ts k (c :: us) → c.kind = .colon →
      Expression .equality us v (d :: vs) → d.kind = .comma → Pairs vs ps rest →
      Pairs ts ((k, v) :: ps) rest

/-- The pairs of a hash literal and the brace that closes them. A comma may follow the last pair. -/
inductive Entries : List Token → List (Expr Unit × Expr Unit) → List Token → Prop where
  | empty {t rest} : t.kind = .rbrace → Entries (t :: rest) [] rest
  | filled {t ts ps rest} : Pairs ts ps (t :: rest) → t.kind = .rbrace → Entries ts ps rest
  | comma {c t ts ps rest} : Pairs ts ps (c :: t :: rest) → c.kind = .comma → t.kind = .rbrace →
      Entries ts ps rest

/-- Statements without the semicolon that may end them. -/
inductive Statement : List Token → Stmt Unit → List Token → Prop where
  | bind {t u v ts x rest} : t.kind = .letWord → u.kind = .ident → v.kind = .assign →
      Expression .equality ts x rest → Statement (t :: u :: v :: ts) (.bind u.literal x) rest
  | ret {t ts x rest} : t.kind = .returnWord → Expression .equality ts x rest →
      Statement (t :: ts) (.ret x) rest
  | expr {ts x rest} : Expression .equality ts x rest → Statement ts (.expr x) rest

/-- Statements one after the other, each with or without a semicolon. -/
inductive Statements : List Token → List (Stmt Unit) → List Token → Prop where
  | nil {rest} : Statements rest [] rest
  | ended {t ts us s b rest} : Statement ts s (t :: us) → t.kind = .semicolon →
      Statements us b rest → Statements ts (s :: b) rest
  | unended {ts us s b rest} : Statement ts s us → (b ≠ [] → firstKind us ∉ ambiguous) →
      Statements us b rest → Statements ts (s :: b) rest

/-- Blocks. Where the input ends, the closing brace may be missing. -/
inductive Braced : List Token → List (Stmt Unit) → List Token → Prop where
  | closed {t u ts b rest} : t.kind = .lbrace → Statements ts b (u :: rest) → u.kind = .rbrace →
      Braced (t :: ts) b rest
  | unclosed {t ts b} : t.kind = .lbrace → Statements ts b [] → Braced (t :: ts) b []

end

/-- Programs: statements up to the end of the input. -/
def Program (ts : List Token) (p : List (Stmt Unit)) : Prop := Statements ts p []

/-! ## Between levels -/

/-- The level of the expressions that are read if their operators bind tighter than `min`. -/
def levelAbove : Precedence → Precedence
  | .lowest => .equality
  | .equality => .comparison
  | .comparison => .sum
  | .sum => .product
  | _ => .unary

/-- Expressions are read at a level no tighter than that of the unary operators. -/
theorem levelAbove_le_unary (min : Precedence) :
    (levelAbove min).rank ≤ Precedence.unary.rank := by
  cases min <;> decide

/-- The operators that are taken are of the level that is read or of a tighter one. -/
theorem levelAbove_le_of_lt {min l : Precedence} (h : min < l) :
    (levelAbove min).rank ≤ l.rank := by
  revert h
  cases min <;> cases l <;> decide

theorem tighter?_rank {l m : Precedence} (h : tighter? l = some m) : m.rank = l.rank + 1 := by
  revert h
  cases l <;> cases m <;> decide

theorem tighter?_of_rank {l m : Precedence} (h : m.rank = l.rank + 1) : tighter? l = some m := by
  revert h
  cases l <;> cases m <;> decide

/-- Every rank up to that of calls is the rank of a level. -/
theorem exists_rank {k : Nat} (h : k ≤ Precedence.call.rank) : ∃ l : Precedence, l.rank = k := by
  have hk : k < 7 := by simp only [Precedence.rank] at h; omega
  exact ⟨Precedence.all[k], by revert hk; revert k; decide⟩

/-- What is of a tighter level is of every looser one. -/
theorem Expression.loosen {l m : Precedence} {ts : List Token} {x : Expr Unit} {rest : List Token}
    (hlm : l.rank ≤ m.rank) (h : Expression m ts x rest) : Expression l ts x rest := by
  induction hd : m.rank - l.rank generalizing l with
  | zero =>
    have : l = m := by
      have hrank : l.rank = m.rank := by omega
      revert hrank
      cases l <;> cases m <;> decide
    exact this ▸ h
  | succ d ih =>
    have hbound : l.rank + 1 ≤ Precedence.call.rank := by
      cases m <;> simp [Precedence.rank] at * <;> omega
    obtain ⟨l', hl'⟩ := exists_rank hbound
    exact .tighter (tighter?_of_rank hl') (ih (by omega) (by omega))

end ClosureLang.Grammar
