import ClosureLang.Proofs.Parse.Moves

/-!
# The bound on a production does not change what it gives

How deep calls may go decides whether a production has a result, and never which one. A production
that has a result has the same one if it may go deeper (`Production.refines`), so two results for
two bounds are one result (`Production.Refines.unique`).
-/

namespace ClosureLang

namespace Production

variable {α β : Type}

/-- Whatever the first computation gives, the second one gives too. -/
def Refines (m m' : Option α) : Prop := ∀ ⦃a⦄, m = some a → m' = some a

namespace Refines

theorem refl (m : Option α) : Refines m m := fun _ h => h

theorem of_none (m : Option α) : Refines none m := by
  intro a h
  cases h

/-- Productions in a row have a result only where both do, so a higher bound keeps it. -/
theorem bind {m m' : Option (α × Cursor)} {f f' : α × Cursor → Option β} (hm : Refines m m')
    (hf : ∀ a q, Refines (f (a, q)) (f' (a, q))) : Refines (m >>= f) (m' >>= f') := by
  intro b h
  obtain ⟨⟨a, q⟩, ha, hb⟩ := Option.bind_eq_some_iff.mp h
  exact Option.bind_eq_some_iff.mpr ⟨_, hm ha, hf a q hb⟩

/-- What happens after a wanted token, whether it is there or not. -/
theorem expect {p : Cursor} {k : TokenKind} {no no' yes yes' : Cursor → Option β}
    (hno : ∀ q, Refines (no q) (no' q)) (hyes : ∀ q, Refines (yes q) (yes' q)) :
    Refines
      (match p.expect k with
      | (false, q) => no q
      | (true, q) => yes q)
      (match p.expect k with
      | (false, q) => no' q
      | (true, q) => yes' q) := by
  rcases p.expect k with ⟨_ | _, q⟩
  · exact hno q
  · exact hyes q

section Deeper

variable {f : Nat → Option α} (hf : ∀ n, Refines (f n) (f (n + 1))) {m n : Nat} {a b : α}

include hf

/-- If a deeper bound always refines, a result stays for every deeper bound. -/
theorem keep (hmn : m ≤ n) (ha : f m = some a) : f n = some a := by
  induction hmn with
  | refl => exact ha
  | step _ ih => exact hf _ ih

/-- If a deeper bound always refines, a result for one bound is the result for every other bound
that has one. -/
theorem unique (ha : f m = some a) (hb : f n = some b) : a = b := by
  have ha' := keep hf (Nat.le_max_left m n) ha
  have hb' := keep hf (Nat.le_max_right m n) hb
  exact Option.some.inj (ha'.symm.trans hb')

end Deeper

end Refines

/-- The bound is used up name by name, and the last one needs no more than is left. -/
theorem names_refines : ∀ (n : Nat) (p : Cursor), Refines (names n p) (names (n + 1) p) := by
  intro n
  induction n with
  | zero => exact fun p => .of_none _
  | succ n ih =>
    intro p
    rw [names, names]
    split
    · split
      · exact .bind (ih _) fun _ _ => .refl _
      · exact .refl _
    · exact .refl _

theorem parameters_refines (n : Nat) (p : Cursor) :
    Refines (parameters n p) (parameters (n + 1) p) := by
  rw [parameters, parameters]
  split
  · exact .refl _
  · exact .bind (names_refines n _) fun _ _ => .refl _

/-! ## Expressions and statements -/

/-- Every production that may go `n` calls deep is refined by itself with one call more. -/
structure AllRefine (n : Nat) : Prop where
  expression : ∀ min p, Refines (expression n min p) (expression (n + 1) min p)
  operand : ∀ lead p, Refines (operand n lead p) (operand (n + 1) lead p)
  operators : ∀ min left p, Refines (operators n min left p) (operators (n + 1) min left p)
  extend : ∀ follow left p, Refines (extend n follow left p) (extend (n + 1) follow left p)
  elements : ∀ close p, Refines (elements n close p) (elements (n + 1) close p)
  moreElements : ∀ p, Refines (moreElements n p) (moreElements (n + 1) p)
  pairs : ∀ p, Refines (pairs n p) (pairs (n + 1) p)
  conditional : ∀ p, Refines (conditional n p) (conditional (n + 1) p)
  function : ∀ p, Refines (function n p) (function (n + 1) p)
  statements : ∀ inBlock p, Refines (statements n inBlock p) (statements (n + 1) inBlock p)
  statement : ∀ p, Refines (statement n p) (statement (n + 1) p)

namespace AllRefine

variable {n : Nat}

/-- One step of an expression: its operand and the operators after it have one bound less on both
sides. -/
theorem expression_succ (ih : AllRefine n) (min : Precedence) (p : Cursor) :
    Refines (Production.expression (n + 1) min p) (Production.expression (n + 2) min p) := by
  rw [Production.expression, Production.expression]
  split
  · exact .refl _
  · exact .bind (ih.operand _ p) fun left q => ih.operators min left q

theorem operand_succ (ih : AllRefine n) (lead : Lead) (p : Cursor) :
    Refines (Production.operand (n + 1) lead p) (Production.operand (n + 2) lead p) := by
  cases lead <;> rw [Production.operand, Production.operand]
  case name => exact .refl _
  case integer => exact .refl _
  case text => exact .refl _
  case truth b => exact .refl _
  case unary op => exact .bind (ih.expression _ _) fun _ _ => .refl _
  case group => exact .bind (ih.expression _ _) fun _ _ => .refl _
  case array => exact .bind (ih.elements _ p) fun _ _ => .refl _
  case hash => exact .bind (ih.pairs p) fun _ _ => .refl _
  case conditional => exact ih.conditional p
  case function => exact ih.function p

/-- The loop tests the next token without the bound, and goes on with one less. -/
theorem operators_succ (ih : AllRefine n) (min : Precedence) (left : Option (Expr Unit))
    (p : Cursor) :
    Refines (Production.operators (n + 1) min left p) (Production.operators (n + 2) min left p) := by
  rw [Production.operators, Production.operators]
  split
  · split
    · exact .refl _
    · exact .bind (ih.extend _ left _) fun left q => ih.operators min left q
  · exact .refl _

theorem extend_succ (ih : AllRefine n) (follow : Follow) (left : Option (Expr Unit)) (p : Cursor) :
    Refines (Production.extend (n + 1) follow left p) (Production.extend (n + 2) follow left p) := by
  cases follow <;> rw [Production.extend, Production.extend]
  case operation op => exact .bind (ih.expression _ _) fun _ _ => .refl _
  case call => exact .bind (ih.elements _ p) fun _ _ => .refl _
  case index => exact .bind (ih.expression _ _) fun _ _ => .refl _

theorem elements_succ (ih : AllRefine n) (close : TokenKind) (p : Cursor) :
    Refines (Production.elements (n + 1) close p) (Production.elements (n + 2) close p) := by
  rw [Production.elements, Production.elements]
  split
  · exact .refl _
  · exact .bind (ih.expression _ _) fun _ q => .bind (ih.moreElements q) fun _ _ => .refl _

theorem moreElements_succ (ih : AllRefine n) (p : Cursor) :
    Refines (Production.moreElements (n + 1) p) (Production.moreElements (n + 2) p) := by
  rw [Production.moreElements, Production.moreElements]
  split
  · exact .bind (ih.expression _ _) fun _ q => .bind (ih.moreElements q) fun _ _ => .refl _
  · exact .refl _

theorem pairs_succ (ih : AllRefine n) (p : Cursor) :
    Refines (Production.pairs (n + 1) p) (Production.pairs (n + 2) p) := by
  rw [Production.pairs, Production.pairs]
  split
  · exact .refl _
  · refine .bind (ih.expression _ _) fun key q => ?_
    refine .expect (fun _ => .refl _) fun r => ?_
    refine .bind (ih.expression _ _) fun value s => ?_
    dsimp only
    split
    · exact .refl _
    · refine .expect (fun _ => .refl _) fun t => ?_
      exact .bind (ih.pairs t) fun _ _ => .refl _

theorem conditional_succ (ih : AllRefine n) (p : Cursor) :
    Refines (Production.conditional (n + 1) p) (Production.conditional (n + 2) p) := by
  rw [Production.conditional, Production.conditional]
  refine .bind (ih.expression _ _) fun test q => ?_
  refine .expect (fun _ => .refl _) fun r => ?_
  refine .bind (ih.statements _ _) fun yes s => ?_
  dsimp only
  split
  · refine .expect (fun _ => .refl _) fun t => ?_
    exact .bind (ih.statements _ _) fun _ _ => .refl _
  · exact .refl _

theorem function_succ (ih : AllRefine n) (p : Cursor) :
    Refines (Production.function (n + 1) p) (Production.function (n + 2) p) := by
  rw [Production.function, Production.function]
  refine .expect (fun _ => .refl _) fun q => ?_
  refine .bind (parameters_refines n q) fun params r => ?_
  cases params with
  | none => exact .refl _
  | some params =>
    refine .expect (fun _ => .refl _) fun s => ?_
    exact .bind (ih.statements _ _) fun _ _ => .refl _

/-- Statements stop without the bound, and read the next one with one less. -/
theorem statements_succ (ih : AllRefine n) (inBlock : Bool) (p : Cursor) :
    Refines (Production.statements (n + 1) inBlock p)
      (Production.statements (n + 2) inBlock p) := by
  rw [Production.statements, Production.statements]
  split
  · exact .refl _
  · exact .bind (ih.statement p) fun _ q => .bind (ih.statements _ _) fun _ _ => .refl _

theorem statement_succ (ih : AllRefine n) (p : Cursor) :
    Refines (Production.statement (n + 1) p) (Production.statement (n + 2) p) := by
  rw [Production.statement, Production.statement]
  split
  · refine .expect (fun _ => .refl _) fun q => ?_
    refine .expect (fun _ => .refl _) fun r => ?_
    exact .bind (ih.expression _ _) fun _ _ => .refl _
  · exact .bind (ih.expression _ _) fun _ _ => .refl _
  · exact .bind (ih.expression _ _) fun _ _ => .refl _

end AllRefine

/-- **A production that has a result keeps it if it may go deeper.** -/
theorem refines (n : Nat) : AllRefine n := by
  induction n with
  | zero => constructor <;> intros <;> exact .of_none _
  | succ n ih =>
    exact {
      expression := ih.expression_succ
      operand := ih.operand_succ
      operators := ih.operators_succ
      extend := ih.extend_succ
      elements := ih.elements_succ
      moreElements := ih.moreElements_succ
      pairs := ih.pairs_succ
      conditional := ih.conditional_succ
      function := ih.function_succ
      statements := ih.statements_succ
      statement := ih.statement_succ }

end Production

end ClosureLang
