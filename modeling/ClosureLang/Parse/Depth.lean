import ClosureLang.Parse.Production

/-!
# Productions end

`Ends m k` says that a bounded production has a result and leaves at most `k` tokens. The main
statement, `Production.ends`, is that a production ends if it may go eight calls deep for each token
that is left, and a few more: eight because at most that many calls are open before a token is read.
`AllEnd` says how many more each production needs. Along the way the cursor never moves back.

`Cursor.depth` is such a bound, computed from what is left.
-/

namespace ClosureLang

namespace Production

/-- A bounded production has a result, and at most `k` tokens are left after it. -/
def Ends {α : Type} (m : Option (α × Cursor)) (k : Nat) : Prop :=
  ∃ a q, m = some (a, q) ∧ q.left ≤ k

theorem Ends.of_some {α : Type} {a : α} {q : Cursor} {k : Nat} (h : q.left ≤ k) :
    Ends (some (a, q)) k :=
  ⟨a, q, rfl, h⟩

/-- The same result, on a cursor that has also passed the semicolon after it. -/
theorem Ends.of_skipTerminator {α : Type} {a : α} {q : Cursor} {k : Nat} (h : q.left ≤ k) :
    Ends (some (a, q.skipTerminator)) k :=
  .of_some (Nat.le_trans q.left_skipTerminator_le h)

theorem Ends.mono {α : Type} {m : Option (α × Cursor)} {j k : Nat} (h : Ends m j) (hjk : j ≤ k) :
    Ends m k := by
  obtain ⟨a, q, hm, hq⟩ := h
  exact ⟨a, q, hm, Nat.le_trans hq hjk⟩

/-- Where one production follows another, the second has what the first has left. -/
theorem Ends.bind {α β : Type} {m : Option (α × Cursor)} {f : α × Cursor → Option (β × Cursor)}
    {j k : Nat} (h : Ends m j) (hf : ∀ a q, q.left ≤ j → Ends (f (a, q)) k) :
    Ends (m >>= f) k := by
  obtain ⟨a, q, rfl, hq⟩ := h
  exact hf a q hq

theorem Ends.isSome {α : Type} {m : Option (α × Cursor)} {k : Nat} (h : Ends m k) : m.isSome := by
  obtain ⟨a, q, rfl, _⟩ := h
  rfl

/-- What happens after a wanted token: it is there and one more token is behind, or it is not. -/
theorem Ends.expect {β : Type} {p : Cursor} {kind : TokenKind} {j k : Nat}
    {no yes : Cursor → Option (β × Cursor)} (hkind : kind ≠ .eof) (hp : p.left ≤ j)
    (hno : ∀ q : Cursor, q.left ≤ j → Ends (no q) k)
    (hyes : ∀ q : Cursor, q.left + 1 ≤ j → 0 < q.left → Ends (yes q) k) :
    Ends (match p.expect kind with
      | (false, q) => no q
      | (true, q) => yes q) k := by
  have hle := p.left_expect_le kind
  rcases h : p.expect kind with ⟨found, q⟩
  rw [h] at hle
  cases found with
  | false => exact hno q (Nat.le_trans hle hp)
  | true =>
    have hq := Cursor.left_expect_of_true hkind h
    exact hyes q (by omega) (by omega)

/-- A name is read for each call, so names need one call for each token left. -/
theorem names_ends : ∀ (n : Nat) (p : Cursor), p.left + 1 ≤ n → Ends (names n p) p.left := by
  intro n
  induction n with
  | zero => intro p h; omega
  | succ n ih =>
    intro p h
    rw [names]
    split
    · split
      · next hc =>
        have hp := Cursor.one_lt_left_of_peek (p := p) (by rw [hc]; decide)
        refine Ends.bind (ih p.advance.advance (by simp; omega)) ?_
        intro rest q hq
        exact Ends.of_some (by simp at hq; omega)
      · exact Ends.of_some (Nat.le_refl _)
    · exact Ends.of_some (by simp)

theorem parameters_ends {n : Nat} {p : Cursor} (h : p.left + 1 ≤ n) :
    Ends (parameters n p) p.left := by
  rw [parameters]
  split
  · exact Ends.of_some (by simp)
  · refine Ends.bind (names_ends n p.advance (by simp; omega)) ?_
    intro params q hq
    have hq' : q.left ≤ p.left := by simp at hq; omega
    cases params with
    | none => exact Ends.of_some hq'
    | some params =>
      exact Ends.expect (by decide) hq' (fun r hr => Ends.of_some hr)
        (fun r hr _ => Ends.of_some (by omega))

/-- Every production that may go `n` calls deep ends, if that is eight calls for each token left and
as many more as can be open before a token is read. -/
structure AllEnd (n : Nat) : Prop where
  expression : ∀ min p, 8 * p.left + 5 ≤ n → Ends (expression n min p) p.left
  operand : ∀ lead p, 0 < p.left → 8 * p.left + 4 ≤ n → Ends (operand n lead p) p.left
  operators : ∀ min left p, 8 * p.left + 4 ≤ n → Ends (operators n min left p) p.left
  extend : ∀ follow left p, 0 < p.left → 8 * p.left + 4 ≤ n → Ends (extend n follow left p) p.left
  elements : ∀ close p, close ≠ .eof → 0 < p.left → 8 * p.left + 3 ≤ n →
    Ends (elements n close p) p.left
  moreElements : ∀ p, 8 * p.left + 1 ≤ n → Ends (moreElements n p) p.left
  pairs : ∀ p, 0 < p.left → 8 * p.left + 3 ≤ n → Ends (pairs n p) p.left
  conditional : ∀ p, 0 < p.left → 8 * p.left + 3 ≤ n → Ends (conditional n p) p.left
  function : ∀ p, 8 * p.left + 3 ≤ n → Ends (function n p) p.left
  statements : ∀ inBlock p, 8 * p.left + 7 ≤ n → Ends (statements n inBlock p) p.left
  statement : ∀ p, 8 * p.left + 6 ≤ n → Ends (statement n p) p.left

namespace AllEnd

variable {n : Nat}

/-- An expression that starts one token further on. -/
theorem next (ih : AllEnd n) (min : Precedence) {p : Cursor} (hp : 0 < p.left)
    (hn : 8 * p.left ≤ n + 3) : Ends (Production.expression n min p.advance) (p.left - 1) := by
  have h := ih.expression min p.advance (by simp; omega)
  rwa [Cursor.left_advance] at h

theorem expression_succ (ih : AllEnd n) (min : Precedence) (p : Cursor)
    (hn : 8 * p.left + 5 ≤ n + 1) : Ends (Production.expression (n + 1) min p) p.left := by
  rw [Production.expression]
  split
  · exact Ends.of_some (by simp)
  · next lead hlead =>
    have hp : 0 < p.left := Cursor.left_pos_of_current (by
      intro he; rw [he] at hlead; simp [TokenKind.lead?] at hlead)
    refine Ends.bind (ih.operand lead p hp (by omega)) ?_
    intro left q hq
    exact (ih.operators min left q (by omega)).mono hq

theorem operand_succ (ih : AllEnd n) (lead : Lead) (p : Cursor) (hp : 0 < p.left)
    (hn : 8 * p.left + 4 ≤ n + 1) : Ends (Production.operand (n + 1) lead p) p.left := by
  cases lead <;> rw [Production.operand]
  case name => exact Ends.of_some (Nat.le_refl _)
  case integer =>
    split
    · exact Ends.of_some (Nat.le_refl _)
    · exact Ends.of_some (by simp)
  case text => exact Ends.of_some (Nat.le_refl _)
  case truth b => exact Ends.of_some (Nat.le_refl _)
  case unary op =>
    refine Ends.bind (ih.next .unary hp (by omega)) ?_
    intro x q hq
    exact Ends.of_some (by omega)
  case group =>
    refine Ends.bind (ih.next .lowest hp (by omega)) ?_
    intro x q hq
    exact Ends.expect (by decide) hq (fun r hr => Ends.of_some (by omega))
      (fun r hr _ => Ends.of_some (by omega))
  case array =>
    refine Ends.bind (ih.elements .rbracket p (by decide) hp (by omega)) ?_
    intro xs q hq
    exact Ends.of_some hq
  case hash =>
    refine Ends.bind (ih.pairs p hp (by omega)) ?_
    intro ps q hq
    exact Ends.of_some hq
  case conditional => exact ih.conditional p hp (by omega)
  case function => exact ih.function p (by omega)

theorem operators_succ (ih : AllEnd n) (min : Precedence) (left : Option (Expr Unit)) (p : Cursor)
    (hn : 8 * p.left + 4 ≤ n + 1) : Ends (Production.operators (n + 1) min left p) p.left := by
  rw [Production.operators]
  split
  · split
    · exact Ends.of_some (Nat.le_refl _)
    · next follow hfollow =>
      have hp : 1 < p.left := Cursor.one_lt_left_of_peek (by
        intro he; rw [he] at hfollow; simp [TokenKind.follow?] at hfollow)
      refine Ends.bind (ih.extend follow left p.advance (by simp; omega) (by simp; omega)) ?_
      intro left q hq
      simp only [Cursor.left_advance] at hq
      exact (ih.operators min left q (by omega)).mono (by omega)
  · exact Ends.of_some (Nat.le_refl _)

theorem extend_succ (ih : AllEnd n) (follow : Follow) (left : Option (Expr Unit)) (p : Cursor)
    (hp : 0 < p.left) (hn : 8 * p.left + 4 ≤ n + 1) :
    Ends (Production.extend (n + 1) follow left p) p.left := by
  cases follow <;> rw [Production.extend]
  case operation op =>
    refine Ends.bind (ih.next _ hp (by omega)) ?_
    intro right q hq
    exact Ends.of_some (by omega)
  case call =>
    refine Ends.bind (ih.elements .rparen p (by decide) hp (by omega)) ?_
    intro args q hq
    exact Ends.of_some hq
  case index =>
    refine Ends.bind (ih.next .lowest hp (by omega)) ?_
    intro key q hq
    exact Ends.expect (by decide) hq (fun r hr => Ends.of_some (by omega))
      (fun r hr _ => Ends.of_some (by omega))

theorem elements_succ (ih : AllEnd n) (close : TokenKind) (p : Cursor) (hclose : close ≠ .eof)
    (hp : 0 < p.left) (hn : 8 * p.left + 3 ≤ n + 1) :
    Ends (Production.elements (n + 1) close p) p.left := by
  rw [Production.elements]
  split
  · exact Ends.of_some (by simp)
  · refine Ends.bind (ih.next .lowest hp (by omega)) ?_
    intro first q hq
    refine Ends.bind (ih.moreElements q (by omega)) ?_
    intro rest r hr
    exact Ends.expect hclose hr (fun s hs => Ends.of_some (by omega))
      (fun s hs _ => Ends.of_some (by omega))

theorem moreElements_succ (ih : AllEnd n) (p : Cursor) (hn : 8 * p.left + 1 ≤ n + 1) :
    Ends (Production.moreElements (n + 1) p) p.left := by
  rw [Production.moreElements]
  split
  · next hc =>
    have hp := Cursor.one_lt_left_of_peek (p := p) (by rw [hc]; decide)
    refine Ends.bind (ih.next .lowest (p := p.advance) (by simp; omega) (by simp; omega)) ?_
    intro x q hq
    simp only [Cursor.left_advance] at hq
    refine Ends.bind (ih.moreElements q (by omega)) ?_
    intro rest r hr
    exact Ends.of_some (by omega)
  · exact Ends.of_some (Nat.le_refl _)

theorem pairs_succ (ih : AllEnd n) (p : Cursor) (hp : 0 < p.left) (hn : 8 * p.left + 3 ≤ n + 1) :
    Ends (Production.pairs (n + 1) p) p.left := by
  rw [Production.pairs]
  split
  · exact Ends.of_some (by simp)
  · refine Ends.bind (ih.next .lowest hp (by omega)) ?_
    intro key q hq
    refine Ends.expect (by decide) hq (fun r hr => Ends.of_some (by omega)) ?_
    intro r hr hr0
    refine Ends.bind (ih.next .lowest hr0 (by omega)) ?_
    intro value s hs
    dsimp only
    split
    · exact Ends.of_some (by simp; omega)
    · refine Ends.expect (by decide) hs (fun t ht => Ends.of_some (by omega)) ?_
      intro t ht ht0
      refine Ends.bind (ih.pairs t ht0 (by omega)) ?_
      intro rest u hu
      exact Ends.of_some (show u.left ≤ p.left by omega)

/-- A block, from the token after its opening brace on. -/
theorem body (ih : AllEnd n) {p : Cursor} (hp : 0 < p.left) (hn : 8 * p.left ≤ n + 1) :
    Ends (Production.statements n true p.advance) (p.left - 1) := by
  have h := ih.statements true p.advance (by simp; omega)
  rwa [Cursor.left_advance] at h

theorem conditional_succ (ih : AllEnd n) (p : Cursor) (hp : 0 < p.left)
    (hn : 8 * p.left + 3 ≤ n + 1) : Ends (Production.conditional (n + 1) p) p.left := by
  rw [Production.conditional]
  refine Ends.bind (ih.next .lowest hp (by omega)) ?_
  intro test q hq
  refine Ends.expect (by decide) hq (fun r hr => Ends.of_some (by omega)) ?_
  intro r hr hr0
  refine Ends.bind (ih.body hr0 (by omega)) ?_
  intro yes s hs
  dsimp only
  split
  · refine Ends.expect (j := s.left) (by decide) (by simp) (fun t ht => Ends.of_some (by omega)) ?_
    intro t ht ht0
    refine Ends.bind (ih.body ht0 (by omega)) ?_
    intro no u hu
    exact Ends.of_some (show u.left ≤ p.left by omega)
  · exact Ends.of_some (by omega)

theorem function_succ (ih : AllEnd n) (p : Cursor) (hn : 8 * p.left + 3 ≤ n + 1) :
    Ends (Production.function (n + 1) p) p.left := by
  rw [Production.function]
  refine Ends.expect (j := p.left) (by decide) (Nat.le_refl _) (fun q hq => Ends.of_some hq) ?_
  intro q hq hq0
  refine Ends.bind (parameters_ends (n := n) (p := q) (by omega)) ?_
  intro params r hr
  cases params with
  | none => exact Ends.of_some (by omega)
  | some params =>
    refine Ends.expect (by decide) hr (fun s hs => Ends.of_some (by omega)) ?_
    intro s hs hs0
    refine Ends.bind (ih.body hs0 (by omega)) ?_
    intro body t ht
    exact Ends.of_some (by omega)

theorem statements_succ (ih : AllEnd n) (inBlock : Bool) (p : Cursor)
    (hn : 8 * p.left + 7 ≤ n + 1) : Ends (Production.statements (n + 1) inBlock p) p.left := by
  rw [Production.statements]
  split
  · exact Ends.of_some (Nat.le_refl _)
  · next hc =>
    have hp : 0 < p.left := Cursor.left_pos_of_current (fun he => hc (Or.inl he))
    refine Ends.bind (ih.statement p (by omega)) ?_
    intro s q hq
    refine Ends.bind (ih.statements inBlock q.advance (by simp; omega)) ?_
    intro rest r hr
    simp only [Cursor.left_advance] at hr
    exact Ends.of_some (by omega)

theorem statement_succ (ih : AllEnd n) (p : Cursor) (hn : 8 * p.left + 6 ≤ n + 1) :
    Ends (Production.statement (n + 1) p) p.left := by
  rw [Production.statement]
  split
  · refine Ends.expect (j := p.left) (by decide) (Nat.le_refl _) (fun q hq => Ends.of_some hq) ?_
    intro q hq hq0
    refine Ends.expect (j := q.left) (by decide) (Nat.le_refl _)
      (fun r hr => Ends.of_some (by omega)) ?_
    intro r hr hr0
    refine Ends.bind (ih.next .lowest hr0 (by omega)) ?_
    intro x s hs
    exact Ends.of_skipTerminator (by omega)
  · next hc =>
    have hp : 0 < p.left := Cursor.left_pos_of_current (by rw [hc]; decide)
    refine Ends.bind (ih.next .lowest hp (by omega)) ?_
    intro x q hq
    exact Ends.of_skipTerminator (by omega)
  · refine Ends.bind (ih.expression .lowest p (by omega)) ?_
    intro x q hq
    exact Ends.of_skipTerminator hq

end AllEnd

/-- **Productions end within eight calls for each token left and a few more.** -/
theorem ends (n : Nat) : AllEnd n := by
  induction n with
  | zero => constructor <;> intros <;> omega
  | succ n ih =>
    exact {
      expression := ih.expression_succ
      operand := ih.operand_succ
      operators := ih.operators_succ
      extend := ih.extend_succ
      elements := ih.elements_succ
      moreElements := ih.moreElements_succ
      pairs := ih.pairs_succ
      conditional := ih.conditional_succ
      function := ih.function_succ
      statements := ih.statements_succ
      statement := ih.statement_succ }

end Production

namespace Cursor

open Production

/-- How deep productions may go from here. -/
def depth (p : Cursor) : Nat := 8 * p.left + 8

/-- That deep, an expression has a result, and so have a statement and a list of statements. -/
theorem expression_isSome (min : Precedence) (p : Cursor) :
    (Production.expression p.depth min p).isSome :=
  ((ends p.depth).expression min p (by unfold depth; omega)).isSome

theorem statement_isSome (p : Cursor) : (Production.statement p.depth p).isSome :=
  ((ends p.depth).statement p (by unfold depth; omega)).isSome

theorem statements_isSome (inBlock : Bool) (p : Cursor) :
    (Production.statements p.depth inBlock p).isSome :=
  ((ends p.depth).statements inBlock p (by unfold depth; omega)).isSome

end Cursor

end ClosureLang
