import ClosureLang.Parse.Program
import ClosureLang.Proofs.Parse.Grammar

/-!
# What a production does to its cursor

A production reads tokens and adds reports, and it does nothing else: the tokens that are left are
the end of those there were, the reports there were are the beginning of those there are, and the
end of the source stays where it is. `Cursor.Moves` says this of two cursors and
`Production.moves` of every production.

`Moving p m` is the form for a bounded production `m` that starts at `p`: it holds of a production
without a result, so nothing here depends on the bound.
-/

namespace ClosureLang

open Grammar

namespace Cursor

/-! ## The tokens at hand -/

/-- The kind of the current token is that of the first token left, and the end if none is. -/
theorem current_kind (p : Cursor) : p.current.kind = firstKind p.tokens := by
  cases h : p.tokens <;> simp [current, h]

theorem peek_kind (p : Cursor) : p.peek.kind = firstKind p.tokens.tail := by
  cases h : p.tokens.tail <;> simp [peek, h]

theorem current_of_tokens {p : Cursor} {t : Token} {ts : List Token} (h : p.tokens = t :: ts) :
    p.current = t := by
  simp [current, h]

/-- A current token of a kind other than the end is one of the tokens left. -/
theorem exists_of_current {p : Cursor} {k : TokenKind} (h : p.current.kind = k) (hk : k ≠ .eof) :
    ∃ t ts, p.tokens = t :: ts ∧ t.kind = k :=
  exists_cons_of_firstKind (p.current_kind ▸ h) hk

theorem exists_of_peek {p : Cursor} {k : TokenKind} (h : p.peek.kind = k) (hk : k ≠ .eof) :
    ∃ t ts, p.tokens.tail = t :: ts ∧ t.kind = k :=
  exists_cons_of_firstKind (p.peek_kind ▸ h) hk

@[simp] theorem tokens_advance (p : Cursor) : p.advance.tokens = p.tokens.tail := rfl

/-! ## Moves -/

/-- `q` is where a production that started at `p` may stand. -/
structure Moves (p q : Cursor) : Prop where
  stop : q.stop = p.stop
  tokens : q.tokens <:+ p.tokens
  reports : p.reports.toList <+: q.reports.toList

namespace Moves

variable {p q r : Cursor}

theorem refl (p : Cursor) : p.Moves p := ⟨rfl, List.suffix_refl _, List.prefix_refl _⟩

/-- What is read and reported after a move adds to it. -/
theorem trans (h₁ : p.Moves q) (h₂ : q.Moves r) : p.Moves r :=
  ⟨h₂.stop.trans h₁.stop, h₂.tokens.trans h₁.tokens, h₁.reports.trans h₂.reports⟩

/-- Reports do not become fewer. -/
theorem size_le (h : p.Moves q) : p.reports.size ≤ q.reports.size := by
  simpa using h.reports.length_le

/-- Moving on drops a token and keeps the reports. -/
theorem advance (h : p.Moves q) : p.Moves q.advance :=
  h.trans ⟨rfl, List.tail_suffix _, List.prefix_refl _⟩

/-- A report is added behind those there are. -/
theorem record (h : p.Moves q) (d : Diagnostic) : p.Moves (q.record d) := by
  refine h.trans ⟨rfl, List.suffix_refl _, ?_⟩
  simp [Cursor.record]

theorem skipTerminator (h : p.Moves q) : p.Moves q.skipTerminator := by
  unfold Cursor.skipTerminator
  split
  · exact h.advance
  · exact h

end Moves

@[simp] theorem size_record (p : Cursor) (d : Diagnostic) :
    (p.record d).reports.size = p.reports.size + 1 := by
  simp [record]

/-- A wanted token is there and is stepped onto, or there is one report more. -/
theorem expect_cases (p : Cursor) (k : TokenKind) :
    p.peek.kind = k ∧ p.expect k = (true, p.advance) ∨
      p.peek.kind ≠ k ∧ p.expect k = (false, p.record (.unexpected k p.peek.kind)) := by
  unfold expect
  by_cases h : p.peek.kind = k
  · exact Or.inl ⟨h, if_pos h⟩
  · exact Or.inr ⟨h, if_neg h⟩

/-! ## Moves without a report -/

/-- No report was added between `p` and `q`. -/
def Quiet (p q : Cursor) : Prop := q.reports.size ≤ p.reports.size

namespace Quiet

variable {p q r : Cursor}

/-- No report was added on the first part of a way. -/
theorem left (h : Quiet p r) (m : q.Moves r) : Quiet p q := Nat.le_trans m.size_le h

/-- No report was added on the last part of a way. -/
theorem right (h : Quiet p r) (m : p.Moves q) : Quiet q r := Nat.le_trans h m.size_le

/-- A cursor that has just recorded a report is not quiet, however it came there. -/
theorem not_record (m : p.Moves q) (d : Diagnostic) : ¬ Quiet p (q.record d) := by
  intro h
  have := m.size_le
  simp only [Quiet, size_record] at h
  omega

/-- If a missing token ends a production and nothing was reported, the token is there. -/
theorem expect {α : Type} {k : TokenKind} {yes : Cursor → Option (Option α × Cursor)}
    {a : Option α} (hm : p.Moves q)
    (h : (match q.expect k with
      | (false, s) => some (none, s)
      | (true, s) => yes s) = some (a, r)) (hq : Quiet p r) :
    q.peek.kind = k ∧ yes q.advance = some (a, r) := by
  rcases q.expect_cases k with ⟨hk, he⟩ | ⟨_, he⟩
  · rw [he] at h
    exact ⟨hk, h⟩
  · rw [he] at h
    cases h
    exact absurd hq (not_record hm _)

end Quiet

end Cursor

namespace Production

/-- Wherever a bounded production that starts at `p` ends, it has only moved. -/
def Moving {α : Type} (p : Cursor) (m : Option (α × Cursor)) : Prop :=
  ∀ a q, m = some (a, q) → p.Moves q

namespace Moving

variable {α β : Type} {p q : Cursor}

theorem of_some {a : α} (h : p.Moves q) : Moving p (some (a, q)) := by
  intro b r hr
  cases hr
  exact h

theorem of_none : Moving p (none : Option (α × Cursor)) := by
  intro a q hq
  cases hq

/-- Productions in a row move from where the first one starts. -/
theorem bind {m : Option (α × Cursor)} {f : α × Cursor → Option (β × Cursor)}
    (hpq : p.Moves q) (h : Moving q m) (hf : ∀ a r, p.Moves r → Moving p (f (a, r))) :
    Moving p (m >>= f) := by
  intro b s hs
  obtain ⟨⟨a, r⟩, hm, hr⟩ := Option.bind_eq_some_iff.mp hs
  exact hf a r (hpq.trans (h a r hm)) b s hr

/-- What happens after a wanted token, whether it is there or not. -/
theorem expect {k : TokenKind} {no yes : Cursor → Option (β × Cursor)} (hpq : p.Moves q)
    (hno : ∀ r, p.Moves r → Moving p (no r)) (hyes : ∀ r, p.Moves r → Moving p (yes r)) :
    Moving p (match q.expect k with
      | (false, r) => no r
      | (true, r) => yes r) := by
  rcases q.expect_cases k with ⟨_, h⟩ | ⟨_, h⟩
  · rw [h]
    exact hyes _ hpq.advance
  · rw [h]
    exact hno _ (hpq.record _)

end Moving

/-- Names are read token by token, with a report at the first that is none. -/
theorem names_moving : ∀ (n : Nat) (p : Cursor), Moving p (names n p) := by
  intro n
  induction n with
  | zero => exact fun p => Moving.of_none
  | succ n ih =>
    intro p
    have hp := Cursor.Moves.refl p
    rw [names]
    split
    · split
      · exact Moving.bind hp.advance.advance (ih _) fun rest q hq => Moving.of_some hq
      · exact Moving.of_some hp
    · exact Moving.of_some (hp.record _)

theorem parameters_moving (n : Nat) (p : Cursor) : Moving p (parameters n p) := by
  have hp := Cursor.Moves.refl p
  rw [parameters]
  split
  · exact Moving.of_some hp.advance
  · refine Moving.bind hp.advance (names_moving n _) ?_
    intro params q hq
    cases params with
    | none => exact Moving.of_some hq
    | some params =>
      exact Moving.expect hq (fun r hr => Moving.of_some hr) (fun r hr => Moving.of_some hr)

/-! ## Expressions and statements -/

/-- Every production that may go `n` calls deep only moves. -/
structure AllMoving (n : Nat) : Prop where
  expression : ∀ min p, Moving p (expression n min p)
  operand : ∀ lead p, Moving p (operand n lead p)
  operators : ∀ min left p, Moving p (operators n min left p)
  extend : ∀ follow left p, Moving p (extend n follow left p)
  elements : ∀ close p, Moving p (elements n close p)
  moreElements : ∀ p, Moving p (moreElements n p)
  pairs : ∀ p, Moving p (pairs n p)
  conditional : ∀ p, Moving p (conditional n p)
  function : ∀ p, Moving p (function n p)
  statements : ∀ inBlock p, Moving p (statements n inBlock p)
  statement : ∀ p, Moving p (statement n p)

namespace AllMoving

variable {n : Nat}

theorem expression_succ (ih : AllMoving n) (min : Precedence) (p : Cursor) :
    Moving p (Production.expression (n + 1) min p) := by
  have hp := Cursor.Moves.refl p
  rw [Production.expression]
  split
  · exact Moving.of_some (hp.record _)
  · refine Moving.bind hp (ih.operand _ p) ?_
    intro left q hq a r hr
    exact hq.trans (ih.operators min left q a r hr)

theorem operand_succ (ih : AllMoving n) (lead : Lead) (p : Cursor) :
    Moving p (Production.operand (n + 1) lead p) := by
  have hp := Cursor.Moves.refl p
  cases lead <;> rw [Production.operand]
  case name => exact Moving.of_some hp
  case integer =>
    split
    · exact Moving.of_some hp
    · exact Moving.of_some (hp.record _)
  case text => exact Moving.of_some hp
  case truth b => exact Moving.of_some hp
  case unary op =>
    exact Moving.bind hp.advance (ih.expression _ _) fun x q hq => Moving.of_some hq
  case group =>
    refine Moving.bind hp.advance (ih.expression _ _) fun x q hq => ?_
    exact Moving.expect hq (fun r hr => Moving.of_some hr) (fun r hr => Moving.of_some hr)
  case array => exact Moving.bind hp (ih.elements _ p) fun xs q hq => Moving.of_some hq
  case hash => exact Moving.bind hp (ih.pairs p) fun ps q hq => Moving.of_some hq
  case conditional => exact ih.conditional p
  case function => exact ih.function p

/-- The loop moves over one operator and what follows it, and then on. -/
theorem operators_succ (ih : AllMoving n) (min : Precedence) (left : Option (Expr Unit))
    (p : Cursor) : Moving p (Production.operators (n + 1) min left p) := by
  have hp := Cursor.Moves.refl p
  rw [Production.operators]
  split
  · split
    · exact Moving.of_some hp
    · refine Moving.bind hp.advance (ih.extend _ left _) ?_
      intro left q hq a r hr
      exact hq.trans (ih.operators min left q a r hr)
  · exact Moving.of_some hp

theorem extend_succ (ih : AllMoving n) (follow : Follow) (left : Option (Expr Unit))
    (p : Cursor) : Moving p (Production.extend (n + 1) follow left p) := by
  have hp := Cursor.Moves.refl p
  cases follow <;> rw [Production.extend]
  case operation op =>
    exact Moving.bind hp.advance (ih.expression _ _) fun right q hq => Moving.of_some hq
  case call => exact Moving.bind hp (ih.elements _ p) fun args q hq => Moving.of_some hq
  case index =>
    refine Moving.bind hp.advance (ih.expression _ _) fun key q hq => ?_
    exact Moving.expect hq (fun r hr => Moving.of_some hr) (fun r hr => Moving.of_some hr)

theorem elements_succ (ih : AllMoving n) (close : TokenKind) (p : Cursor) :
    Moving p (Production.elements (n + 1) close p) := by
  have hp := Cursor.Moves.refl p
  rw [Production.elements]
  split
  · exact Moving.of_some hp.advance
  · refine Moving.bind hp.advance (ih.expression _ _) fun first q hq => ?_
    refine Moving.bind hq (ih.moreElements q) fun rest r hr => ?_
    exact Moving.expect hr (fun s hs => Moving.of_some hs) (fun s hs => Moving.of_some hs)

theorem moreElements_succ (ih : AllMoving n) (p : Cursor) :
    Moving p (Production.moreElements (n + 1) p) := by
  have hp := Cursor.Moves.refl p
  rw [Production.moreElements]
  split
  · refine Moving.bind hp.advance.advance (ih.expression _ _) fun x q hq => ?_
    exact Moving.bind hq (ih.moreElements q) fun rest r hr => Moving.of_some hr
  · exact Moving.of_some hp

theorem pairs_succ (ih : AllMoving n) (p : Cursor) :
    Moving p (Production.pairs (n + 1) p) := by
  have hp := Cursor.Moves.refl p
  rw [Production.pairs]
  split
  · exact Moving.of_some hp.advance
  · refine Moving.bind hp.advance (ih.expression _ _) fun key q hq => ?_
    refine Moving.expect hq (fun r hr => Moving.of_some hr) fun r hr => ?_
    refine Moving.bind hr.advance (ih.expression _ _) fun value s hs => ?_
    dsimp only
    split
    · exact Moving.of_some hs.advance
    · refine Moving.expect hs (fun t ht => Moving.of_some ht) fun t ht => ?_
      exact Moving.bind ht (ih.pairs t) fun rest u hu => Moving.of_some hu

theorem conditional_succ (ih : AllMoving n) (p : Cursor) :
    Moving p (Production.conditional (n + 1) p) := by
  have hp := Cursor.Moves.refl p
  rw [Production.conditional]
  refine Moving.bind hp.advance (ih.expression _ _) fun test q hq => ?_
  refine Moving.expect hq (fun r hr => Moving.of_some hr) fun r hr => ?_
  refine Moving.bind hr.advance (ih.statements _ _) fun yes s hs => ?_
  dsimp only
  split
  · refine Moving.expect hs.advance (fun t ht => Moving.of_some ht) fun t ht => ?_
    exact Moving.bind ht.advance (ih.statements _ _) fun no u hu => Moving.of_some hu
  · exact Moving.of_some hs

theorem function_succ (ih : AllMoving n) (p : Cursor) :
    Moving p (Production.function (n + 1) p) := by
  have hp := Cursor.Moves.refl p
  rw [Production.function]
  refine Moving.expect hp (fun q hq => Moving.of_some hq) fun q hq => ?_
  refine Moving.bind hq (parameters_moving n q) fun params r hr => ?_
  cases params with
  | none => exact Moving.of_some hr
  | some params =>
    refine Moving.expect hr (fun s hs => Moving.of_some hs) fun s hs => ?_
    exact Moving.bind hs.advance (ih.statements _ _) fun body t ht => Moving.of_some ht

/-- Statements move over one of them, to the token after it, and then on. -/
theorem statements_succ (ih : AllMoving n) (inBlock : Bool) (p : Cursor) :
    Moving p (Production.statements (n + 1) inBlock p) := by
  have hp := Cursor.Moves.refl p
  rw [Production.statements]
  split
  · exact Moving.of_some hp
  · refine Moving.bind hp (ih.statement p) fun s q hq => ?_
    exact Moving.bind hq.advance (ih.statements _ _) fun rest r hr => Moving.of_some hr

theorem statement_succ (ih : AllMoving n) (p : Cursor) :
    Moving p (Production.statement (n + 1) p) := by
  have hp := Cursor.Moves.refl p
  rw [Production.statement]
  split
  · refine Moving.expect hp (fun q hq => Moving.of_some hq) fun q hq => ?_
    refine Moving.expect hq (fun r hr => Moving.of_some hr) fun r hr => ?_
    exact Moving.bind hr.advance (ih.expression _ _) fun x s hs =>
      Moving.of_some hs.skipTerminator
  · exact Moving.bind hp.advance (ih.expression _ _) fun x q hq =>
      Moving.of_some hq.skipTerminator
  · exact Moving.bind hp (ih.expression _ _) fun x q hq => Moving.of_some hq.skipTerminator

end AllMoving

/-- **Productions only move.** -/
theorem moves (n : Nat) : AllMoving n := by
  induction n with
  | zero => constructor <;> intros <;> exact Moving.of_none
  | succ n ih =>
    exact {
      expression := ih.expression_succ
      operand := ih.operand_succ
      operators := ih.operators_succ
      extend := ih.extend_succ
      elements := ih.elements_succ
      moreElements := ih.moreElements_succ
      pairs := ih.pairs_succ
      conditional := ih.conditional_succ
      function := ih.function_succ
      statements := ih.statements_succ
      statement := ih.statement_succ }

end Production

end ClosureLang
