import ClosureLang.Token.Basic
import ClosureLang.Tree.Basic

/-!
# What a token can do in an expression

A token can lead an operand (`TokenKind.lead?`) and it can follow one (`TokenKind.follow?`). Every
token has a precedence, which is above the lowest level exactly for the tokens that can follow an
operand (`TokenKind.lowest_lt_iff`).
-/

namespace ClosureLang

/-- The levels of binding, loosest first. -/
inductive Precedence where
  | lowest | equality | comparison | sum | product | unary | call
  deriving DecidableEq, Repr, Inhabited

namespace Precedence

/-- The place of a level among the levels. -/
def rank : Precedence → Nat
  | lowest => 0
  | equality => 1
  | comparison => 2
  | sum => 3
  | product => 4
  | unary => 5
  | call => 6

instance : LT Precedence := ⟨fun a b => a.rank < b.rank⟩
instance (a b : Precedence) : Decidable (a < b) := inferInstanceAs (Decidable (a.rank < b.rank))

/-- Every level, loosest first. -/
def all : List Precedence := [lowest, equality, comparison, sum, product, unary, call]

/-- The levels that bind less tightly than `p`, loosest first. -/
def below (p : Precedence) : List Precedence := all.filter (· < p)

theorem mem_below {p q : Precedence} : q ∈ p.below ↔ q < p := by
  cases p <;> cases q <;> decide

end Precedence

/-- The operands, by the token they start with. -/
inductive Lead where
  | name | integer | text | truth (b : Bool) | unary (op : UnaryOp)
  | group | array | hash | conditional | function
  deriving DecidableEq, Repr

/-- What can follow an operand: a binary operator, arguments or an index. -/
inductive Follow where
  | operation (op : BinaryOp) | call | index
  deriving DecidableEq, Repr

namespace TokenKind

/-- How tightly a token binds to the operand before it. -/
def precedence : TokenKind → Precedence
  | equal | notEqual => .equality
  | less | greater => .comparison
  | plus | minus => .sum
  | star | slash | power => .product
  | lparen | lbracket => .call
  | _ => .lowest

/-- The operand that a token starts, if it starts one. -/
def lead? : TokenKind → Option Lead
  | ident => some .name
  | int => some .integer
  | string => some .text
  | trueWord => some (.truth true)
  | falseWord => some (.truth false)
  | bang => some (.unary .not)
  | minus => some (.unary .negate)
  | lparen => some .group
  | lbracket => some .array
  | lbrace => some .hash
  | ifWord => some .conditional
  | fnWord => some .function
  | _ => none

/-- What a token makes of the operand before it, if it can follow one. -/
def follow? : TokenKind → Option Follow
  | lparen => some .call
  | lbracket => some .index
  | plus => some (.operation .add)
  | minus => some (.operation .sub)
  | less => some (.operation .less)
  | greater => some (.operation .greater)
  | equal => some (.operation .equal)
  | notEqual => some (.operation .notEqual)
  | star => some (.operation .mul)
  | slash => some (.operation .div)
  | power => some (.operation .power)
  | _ => none

/-- Exactly the tokens that can follow an operand bind above the lowest level. -/
theorem lowest_lt_iff (k : TokenKind) : Precedence.lowest < k.precedence ↔ k.follow?.isSome := by
  cases k <;> decide

end TokenKind

end ClosureLang
