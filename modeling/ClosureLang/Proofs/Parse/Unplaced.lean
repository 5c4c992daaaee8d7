import ClosureLang.Proofs.Parse.Exact
import ClosureLang.Proofs.Parse.Refines
import ClosureLang.Proofs.Token.Reading

/-!
# Where tokens stand does not matter

The parser looks at the kinds and the literals of tokens. Their places it only copies into reports.
So if the places are taken out of a cursor, every production does the same with it, with the places
taken out of what it leaves (`Production.unplaced`).

Two cursors with the same words and the same diagnostics are then read in the same way, wherever
their tokens stand (`Cursor.statements_congr`).
-/

namespace ClosureLang

variable {α β : Type}

/-! ## Taking places out -/

/-- A token without its place. -/
def Token.unplaced (t : Token) : Token := ⟨t.kind, t.literal, 0, 0⟩

/-- A report without its place. -/
def Report.unplaced (r : Report) : Report := ⟨r.diagnostic, 0⟩

namespace Cursor

/-- A cursor without the places of its tokens and reports. -/
def unplaced (p : Cursor) : Cursor :=
  ⟨p.tokens.map Token.unplaced, 0, p.reports.map Report.unplaced⟩

/-- Without places, the cursor stands at the same token without its place. -/
@[simp] theorem current_unplaced (p : Cursor) : p.unplaced.current = p.current.unplaced := by
  unfold current unplaced
  cases p.tokens <;> rfl

/-- Moving on does not look at places. -/
@[simp] theorem advance_unplaced (p : Cursor) : p.unplaced.advance = p.advance.unplaced := by
  simp [advance, unplaced]

@[simp] theorem peek_unplaced (p : Cursor) : p.unplaced.peek = p.peek.unplaced := by
  show p.unplaced.advance.current = p.advance.current.unplaced
  rw [advance_unplaced, current_unplaced]

/-- A report copies the place of the current token, and that is all it takes from it. -/
@[simp] theorem record_unplaced (p : Cursor) (d : Diagnostic) :
    p.unplaced.record d = (p.record d).unplaced := by
  simp only [record, current_unplaced]
  simp [unplaced, Token.unplaced, Report.unplaced]

@[simp] theorem skipTerminator_unplaced (p : Cursor) :
    p.unplaced.skipTerminator = p.skipTerminator.unplaced := by
  unfold skipTerminator
  rw [peek_unplaced, Token.unplaced]
  split
  · exact p.advance_unplaced
  · rfl

/-- The diagnostics are what is left of the reports. -/
@[simp] theorem diagnostics_unplaced (p : Cursor) : p.unplaced.diagnostics = p.diagnostics := by
  simp [diagnostics, unplaced, Report.unplaced]

/-- Cursors with the same words and the same diagnostics differ in places only. -/
theorem unplaced_eq {p q : Cursor} (hwords : p.tokens.map Token.word = q.tokens.map Token.word)
    (hdiagnostics : p.diagnostics = q.diagnostics) : p.unplaced = q.unplaced := by
  have htokens : p.tokens.map Token.unplaced = q.tokens.map Token.unplaced := by
    have h := congrArg (List.map fun w : Word => Token.mk w.1 w.2 0 0) hwords
    rwa [List.map_map, List.map_map] at h
  have hreports : p.reports.map Report.unplaced = q.reports.map Report.unplaced := by
    have h := congrArg (List.map fun d : Diagnostic => Report.mk d 0) hdiagnostics
    rw [diagnostics, diagnostics, List.map_map, List.map_map] at h
    exact Array.toList_inj.mp (by rwa [Array.toList_map, Array.toList_map])
  rw [unplaced, unplaced, htokens, hreports]

end Cursor

@[simp] theorem Token.kind_unplaced (t : Token) : t.unplaced.kind = t.kind := rfl

@[simp] theorem Token.literal_unplaced (t : Token) : t.unplaced.literal = t.literal := rfl

namespace Production

/-- What a bounded production leaves, without places. -/
def unplace (m : Option (α × Cursor)) : Option (α × Cursor) := m.map fun y => (y.1, y.2.unplaced)

/-- A bounded production does the same without places. -/
def Unplaced (F : Cursor → Option (α × Cursor)) : Prop := ∀ p, F p.unplaced = unplace (F p)

/-- Productions in a row: places are taken out of what the first leaves, and so of what the second
does. -/
theorem unplace_bind {m : Option (α × Cursor)} {f f' : α × Cursor → Option (β × Cursor)}
    (h : ∀ a q, f' (a, q.unplaced) = unplace (f (a, q))) :
    (unplace m >>= f') = unplace (m >>= f) := by
  cases m with
  | none => rfl
  | some y => exact h y.1 y.2

/-- What happens after a wanted token. -/
theorem unplace_expect {k : TokenKind} {yes : Cursor → Option (Option α × Cursor)} {p : Cursor}
    (h : Unplaced yes) :
    (match p.unplaced.expect k with
      | (false, q) => some (none, q)
      | (true, q) => yes q) =
    unplace (match p.expect k with
      | (false, q) => some (none, q)
      | (true, q) => yes q) := by
  rcases p.expect_cases k with ⟨hk, he⟩ | ⟨hk, he⟩ <;>
    rcases p.unplaced.expect_cases k with ⟨hk', he'⟩ | ⟨hk', he'⟩ <;> rw [he, he']
  · rw [Cursor.advance_unplaced]
    exact h p.advance
  · exact absurd hk (by simpa using hk')
  · exact absurd (by simpa using hk') hk
  · simp [unplace]

/-- Names are told by their kind and taken by their literal. -/
theorem names_unplaced (n : Nat) : Unplaced (names n) := by
  induction n with
  | zero => exact fun _ => rfl
  | succ n ih =>
    intro p
    rw [names, names]
    simp only [Cursor.current_unplaced, Cursor.peek_unplaced, Token.kind_unplaced,
      Token.literal_unplaced, Cursor.advance_unplaced, Cursor.record_unplaced]
    split
    · split
      · rw [ih]
        exact unplace_bind fun _ _ => rfl
      · rfl
    · rfl

theorem parameters_unplaced (n : Nat) : Unplaced (parameters n) := by
  intro p
  rw [parameters, parameters]
  simp only [Cursor.peek_unplaced, Token.kind_unplaced, Cursor.advance_unplaced]
  split
  · rfl
  · rw [names_unplaced]
    refine unplace_bind fun params q => ?_
    cases params with
    | none => rfl
    | some params => exact unplace_expect fun _ => rfl

/-! ## Expressions and statements -/

/-- Every production that may go `n` calls deep does the same without places. -/
structure AllUnplaced (n : Nat) : Prop where
  expression : ∀ min, Unplaced (expression n min)
  operand : ∀ lead, Unplaced (operand n lead)
  operators : ∀ min left, Unplaced (operators n min left)
  extend : ∀ follow left, Unplaced (extend n follow left)
  elements : ∀ close, Unplaced (elements n close)
  moreElements : Unplaced (moreElements n)
  pairs : Unplaced (pairs n)
  conditional : Unplaced (conditional n)
  function : Unplaced (function n)
  statements : ∀ inBlock, Unplaced (statements n inBlock)
  statement : Unplaced (statement n)

namespace AllUnplaced

variable {n : Nat}

theorem expression_succ (ih : AllUnplaced n) (min : Precedence) :
    Unplaced (Production.expression (n + 1) min) := by
  intro p
  rw [Production.expression, Production.expression]
  simp only [Cursor.current_unplaced, Token.kind_unplaced, Cursor.record_unplaced]
  split
  · rfl
  · rw [ih.operand]
    exact unplace_bind fun left q => ih.operators min left q

/-- An operand is chosen by the kind of its first token and made from the literal. -/
theorem operand_succ (ih : AllUnplaced n) (lead : Lead) :
    Unplaced (Production.operand (n + 1) lead) := by
  intro p
  cases lead <;> rw [Production.operand, Production.operand]
  case name | text => rw [Cursor.current_unplaced]; rfl
  case integer =>
    rw [Cursor.current_unplaced, Token.literal_unplaced, Cursor.record_unplaced]
    split <;> rfl
  case truth => rfl
  case unary op =>
    rw [Cursor.advance_unplaced, ih.expression]
    exact unplace_bind fun _ _ => rfl
  case group =>
    rw [Cursor.advance_unplaced, ih.expression]
    exact unplace_bind fun _ _ => unplace_expect fun _ => rfl
  case array =>
    rw [ih.elements]
    exact unplace_bind fun _ _ => rfl
  case hash =>
    rw [ih.pairs]
    exact unplace_bind fun _ _ => rfl
  case conditional => exact ih.conditional p
  case function => exact ih.function p

/-- The loop goes on or stops by the kind of the next token. -/
theorem operators_succ (ih : AllUnplaced n) (min : Precedence) (left : Option (Expr Unit)) :
    Unplaced (Production.operators (n + 1) min left) := by
  intro p
  rw [Production.operators, Production.operators]
  simp only [Cursor.peek_unplaced, Token.kind_unplaced, Cursor.advance_unplaced]
  split
  · split
    · rfl
    · rw [ih.extend]
      exact unplace_bind fun left q => ih.operators min left q
  · rfl

theorem extend_succ (ih : AllUnplaced n) (follow : Follow) (left : Option (Expr Unit)) :
    Unplaced (Production.extend (n + 1) follow left) := by
  intro p
  cases follow <;> rw [Production.extend, Production.extend] <;>
    simp only [Cursor.current_unplaced, Token.kind_unplaced, Cursor.advance_unplaced]
  case operation op =>
    rw [ih.expression]
    exact unplace_bind fun _ _ => rfl
  case call =>
    rw [ih.elements]
    exact unplace_bind fun _ _ => rfl
  case index =>
    rw [ih.expression]
    exact unplace_bind fun _ _ => unplace_expect fun _ => rfl

theorem elements_succ (ih : AllUnplaced n) (close : TokenKind) :
    Unplaced (Production.elements (n + 1) close) := by
  intro p
  rw [Production.elements, Production.elements]
  simp only [Cursor.peek_unplaced, Token.kind_unplaced, Cursor.advance_unplaced]
  split
  · rfl
  · rw [ih.expression]
    refine unplace_bind fun first q => ?_
    dsimp only
    rw [ih.moreElements]
    exact unplace_bind fun rest r => unplace_expect fun _ => rfl

theorem moreElements_succ (ih : AllUnplaced n) : Unplaced (Production.moreElements (n + 1)) := by
  intro p
  rw [Production.moreElements, Production.moreElements]
  simp only [Cursor.peek_unplaced, Token.kind_unplaced, Cursor.advance_unplaced]
  split
  · rw [ih.expression]
    refine unplace_bind fun x q => ?_
    dsimp only
    rw [ih.moreElements]
    exact unplace_bind fun _ _ => rfl
  · rfl

theorem pairs_succ (ih : AllUnplaced n) : Unplaced (Production.pairs (n + 1)) := by
  intro p
  rw [Production.pairs, Production.pairs]
  simp only [Cursor.peek_unplaced, Token.kind_unplaced, Cursor.advance_unplaced]
  split
  · rfl
  · rw [ih.expression]
    refine unplace_bind fun key q => unplace_expect fun r => ?_
    rw [Cursor.advance_unplaced, ih.expression]
    refine unplace_bind fun value u => ?_
    simp only [Cursor.peek_unplaced, Token.kind_unplaced, Cursor.advance_unplaced]
    split
    · rfl
    · refine unplace_expect fun v => ?_
      rw [ih.pairs]
      exact unplace_bind fun _ _ => rfl

theorem conditional_succ (ih : AllUnplaced n) : Unplaced (Production.conditional (n + 1)) := by
  intro p
  rw [Production.conditional, Production.conditional, Cursor.advance_unplaced, ih.expression]
  refine unplace_bind fun test q => unplace_expect fun r => ?_
  rw [Cursor.advance_unplaced, ih.statements]
  refine unplace_bind fun yes u => ?_
  simp only [Cursor.peek_unplaced, Token.kind_unplaced, Cursor.advance_unplaced]
  split
  · refine unplace_expect fun v => ?_
    rw [Cursor.advance_unplaced, ih.statements]
    exact unplace_bind fun _ _ => rfl
  · rfl

theorem function_succ (ih : AllUnplaced n) : Unplaced (Production.function (n + 1)) := by
  intro p
  rw [Production.function, Production.function]
  refine unplace_expect fun q => ?_
  rw [parameters_unplaced]
  refine unplace_bind fun params r => ?_
  cases params with
  | none => rfl
  | some params =>
    refine unplace_expect fun u => ?_
    rw [Cursor.advance_unplaced, ih.statements]
    exact unplace_bind fun _ _ => rfl

/-- Statements stop by the kind of the current token, and a report of one that does not parse keeps
its diagnostic. -/
theorem statements_succ (ih : AllUnplaced n) (inBlock : Bool) :
    Unplaced (Production.statements (n + 1) inBlock) := by
  intro p
  rw [Production.statements, Production.statements]
  simp only [Cursor.current_unplaced, Token.kind_unplaced]
  split
  · rfl
  · rw [ih.statement]
    refine unplace_bind fun s q => ?_
    dsimp only
    rw [Cursor.advance_unplaced, ih.statements]
    exact unplace_bind fun _ _ => rfl

/-- A statement made of an expression, with the semicolon after it. -/
theorem terminated (ih : AllUnplaced n) (f : Expr Unit → Stmt Unit) :
    Unplaced fun p =>
      Production.expression n .lowest p >>= fun y => some (y.1.map f, y.2.skipTerminator) := by
  intro p
  dsimp only
  rw [ih.expression]
  refine unplace_bind fun x q => ?_
  rw [Cursor.skipTerminator_unplaced]
  rfl

theorem statement_succ (ih : AllUnplaced n) : Unplaced (Production.statement (n + 1)) := by
  intro p
  rw [Production.statement, Production.statement]
  simp only [Cursor.current_unplaced, Token.kind_unplaced]
  split
  · refine unplace_expect fun q => ?_
    rw [Cursor.current_unplaced, Token.literal_unplaced]
    refine unplace_expect fun r => ?_
    rw [Cursor.advance_unplaced]
    exact ih.terminated _ r.advance
  · rw [Cursor.advance_unplaced]
    exact ih.terminated _ p.advance
  · exact ih.terminated _ p

end AllUnplaced

/-- **Productions do the same without places.** -/
theorem unplaced (n : Nat) : AllUnplaced n := by
  induction n with
  | zero => constructor <;> intros <;> exact fun _ => rfl
  | succ n ih =>
    exact {
      expression := ih.expression_succ
      operand := ih.operand_succ
      operators := ih.operators_succ
      extend := ih.extend_succ
      elements := ih.elements_succ
      moreElements := ih.moreElements_succ
      pairs := ih.pairs_succ
      conditional := ih.conditional_succ
      function := ih.function_succ
      statements := ih.statements_succ
      statement := ih.statement_succ }

end Production

/-- **Statements are read by their words.** Two cursors with the same words and the same diagnostics
give the same statements and the same diagnostics. -/
theorem Cursor.statements_congr {p q : Cursor} {m n : Nat} {r r' : List (Stmt Unit) × Cursor}
    {inBlock : Bool} (hwords : p.tokens.map Token.word = q.tokens.map Token.word)
    (hdiagnostics : p.diagnostics = q.diagnostics)
    (hp : Production.statements m inBlock p = some r)
    (hq : Production.statements n inBlock q = some r') :
    r.1 = r'.1 ∧ r.2.diagnostics = r'.2.diagnostics := by
  have hp' := (Production.unplaced m).statements inBlock p
  have hq' := (Production.unplaced n).statements inBlock q
  rw [hp, Cursor.unplaced_eq hwords hdiagnostics] at hp'
  rw [hq] at hq'
  have he := Production.Refines.unique (fun n => (Production.refines n).statements _ _) hp' hq'
  rw [Prod.mk.injEq] at he
  refine ⟨he.1, ?_⟩
  rw [← r.2.diagnostics_unplaced, he.2, r'.2.diagnostics_unplaced]

end ClosureLang
