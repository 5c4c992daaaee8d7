import ClosureLang.Proofs.Parse.Exact

/-!
# Every report is charged to a token

A missing token makes each construct around it fail in turn, and the statements then go on at the
next token, so one mistake can bring many reports. They are never more than the tokens, the ending
one included: a construct reports at most once that something is missing, which is charged to its
opening token, and a token that starts no operand is tried as a start once.

The account is `Cursor.charge`, the reports made plus the tokens left. Reading a token lowers it by
one and a report raises it by one. An expression or a statement raises it by at most one
(`Production.charges`), since the token on which it ends is still to be read. At the end of the
source nothing is left to be read, so the ending token pays for the last report.
-/

namespace ClosureLang

namespace Cursor

/-- The reports made so far and the tokens that are left. -/
def charge (p : Cursor) : Nat := p.reports.size + p.left

/-- A report costs one. -/
@[simp] theorem charge_record (p : Cursor) (d : Diagnostic) : (p.record d).charge = p.charge + 1 := by
  unfold charge
  rw [size_record, left_record]
  omega

/-- A token that is read pays for one report. -/
theorem charge_advance {p : Cursor} (h : 0 < p.left) : p.advance.charge + 1 = p.charge := by
  have hreports : p.advance.reports = p.reports := rfl
  unfold charge
  rw [left_advance, hreports]
  omega

/-- Moving on does not cost, and pays where there is a token. -/
theorem charge_advance_le (p : Cursor) : p.advance.charge ≤ p.charge := by
  have hreports : p.advance.reports = p.reports := rfl
  unfold charge
  rw [left_advance, hreports]
  omega

theorem charge_skipTerminator_le (p : Cursor) : p.skipTerminator.charge ≤ p.charge := by
  unfold skipTerminator
  split
  · exact p.charge_advance_le
  · exact Nat.le_refl _

end Cursor

namespace Production

open Cursor

/-- Wherever a bounded production ends, the charge is at most `k`. -/
def Charges {α : Type} (m : Option (α × Cursor)) (k : Nat) : Prop :=
  ∀ a q, m = some (a, q) → q.charge ≤ k

namespace Charges

variable {α β : Type} {j k : Nat}

theorem of_some {a : α} {q : Cursor} (h : q.charge ≤ k) : Charges (some (a, q)) k := by
  intro b r hr
  cases hr
  exact h

theorem of_none : Charges (none : Option (α × Cursor)) k := by
  intro a q hq
  cases hq

theorem mono {m : Option (α × Cursor)} (h : Charges m j) (hjk : j ≤ k) : Charges m k :=
  fun a q hq => Nat.le_trans (h a q hq) hjk

/-- Productions in a row: the second is charged for what the first leaves. -/
theorem bind {m : Option (α × Cursor)} {f : α × Cursor → Option (β × Cursor)} (h : Charges m j)
    (hf : ∀ a q, q.charge ≤ j → Charges (f (a, q)) k) : Charges (m >>= f) k := by
  intro b r hr
  obtain ⟨⟨a, q⟩, hm, hq⟩ := Option.bind_eq_some_iff.mp hr
  exact hf a q (h a q hm) b r hq

/-- A wanted token pays if it is there; if it is not, there is one report more. -/
theorem expect {p : Cursor} {kind : TokenKind} {no yes : Cursor → Option (β × Cursor)}
    (hkind : kind ≠ .eof) (hno : ∀ q, q.charge = p.charge + 1 → Charges (no q) k)
    (hyes : ∀ q, q.charge + 1 = p.charge → 0 < q.left → Charges (yes q) k) :
    Charges (match p.expect kind with
      | (false, q) => no q
      | (true, q) => yes q) k := by
  rcases p.expect_cases kind with ⟨hpeek, he⟩ | ⟨_, he⟩ <;> rw [he]
  · have hleft : 1 < p.left := one_lt_left_of_peek (by rwa [hpeek])
    exact hyes _ (charge_advance (by omega)) (by rw [left_advance]; omega)
  · exact hno _ (charge_record p _)

end Charges

/-! ## Parameters -/

/-- Names cost one report at most, at the first token that is no name. -/
theorem names_charges : ∀ (n : Nat) (p : Cursor), Charges (names n p) (p.charge + 1) := by
  intro n
  induction n with
  | zero => exact fun p => .of_none
  | succ n ih =>
    intro p
    rw [names]
    split
    · split
      · have h₁ := p.charge_advance_le
        have h₂ := p.advance.charge_advance_le
        refine .bind (ih p.advance.advance) fun rest q hq => .of_some ?_
        omega
      · exact .of_some (by omega)
    · exact .of_some (Nat.le_of_eq (charge_record p _))

theorem parameters_charges {n : Nat} {p : Cursor} (hp : 0 < p.left) :
    Charges (parameters n p) (p.charge + 1) := by
  have hadvance := charge_advance hp
  rw [parameters]
  split
  · exact .of_some (by omega)
  · refine .bind (names_charges n p.advance) fun params q hq => ?_
    cases params with
    | none => exact .of_some (by omega)
    | some params =>
      exact .expect (by decide) (fun r hr => .of_some (by omega))
        (fun r hr _ => .of_some (by omega))

/-! ## Expressions and statements -/

/-- What the productions that may go `n` calls deep add to the charge: at most one, and nothing if
they start behind what they follow. -/
structure AllCharge (n : Nat) : Prop where
  expression : ∀ min p, Charges (expression n min p) (p.charge + 1)
  operand : ∀ lead p, 0 < p.left → Charges (operand n lead p) (p.charge + 1)
  operators : ∀ min left p, Charges (operators n min left p) p.charge
  extend : ∀ follow left p, 0 < p.left → Charges (extend n follow left p) (p.charge + 1)
  elements : ∀ close p, close ≠ .eof → 0 < p.left → Charges (elements n close p) (p.charge + 1)
  moreElements : ∀ p, Charges (moreElements n p) p.charge
  pairs : ∀ p, 0 < p.left → Charges (pairs n p) (p.charge + 1)
  conditional : ∀ p, 0 < p.left → Charges (conditional n p) (p.charge + 1)
  function : ∀ p, Charges (function n p) (p.charge + 1)
  statements : ∀ inBlock p, Charges (statements n inBlock p) (p.charge + 1)
  statement : ∀ p, Charges (statement n p) (p.charge + 1)

namespace AllCharge

variable {n : Nat} {p : Cursor}

/-- An expression behind a token is paid for by that token. -/
theorem next (ih : AllCharge n) (min : Precedence) (hp : 0 < p.left) :
    Charges (Production.expression n min p.advance) p.charge :=
  (ih.expression min p.advance).mono (Nat.le_of_eq (charge_advance hp))

/-- So are statements behind a token. -/
theorem block (ih : AllCharge n) (hp : 0 < p.left) :
    Charges (Production.statements n true p.advance) p.charge :=
  (ih.statements true p.advance).mono (Nat.le_of_eq (charge_advance hp))

theorem expression_succ (ih : AllCharge n) (min : Precedence) (p : Cursor) :
    Charges (Production.expression (n + 1) min p) (p.charge + 1) := by
  rw [Production.expression]
  split
  · exact .of_some (Nat.le_of_eq (charge_record p _))
  · next lead hlead =>
    have hp : 0 < p.left := left_pos_of_current (by
      intro he; rw [he] at hlead; cases hlead)
    refine .bind (ih.operand lead p hp) fun left q hq => ?_
    exact (ih.operators min left q).mono hq

theorem operand_succ (ih : AllCharge n) (lead : Lead) (p : Cursor) (hp : 0 < p.left) :
    Charges (Production.operand (n + 1) lead p) (p.charge + 1) := by
  cases lead <;> rw [Production.operand]
  case name => exact .of_some (by omega)
  case integer =>
    split
    · exact .of_some (by omega)
    · exact .of_some (Nat.le_of_eq (charge_record p _))
  case text => exact .of_some (by omega)
  case truth b => exact .of_some (by omega)
  case unary op => exact .bind (ih.next _ hp) fun x q hq => .of_some (by omega)
  case group =>
    refine .bind (ih.next _ hp) fun x q hq => ?_
    exact .expect (by decide) (fun r hr => .of_some (by omega)) (fun r hr _ => .of_some (by omega))
  case array => exact .bind (ih.elements _ p (by decide) hp) fun xs q hq => .of_some hq
  case hash => exact .bind (ih.pairs p hp) fun ps q hq => .of_some hq
  case conditional => exact ih.conditional p hp
  case function => exact ih.function p

/-- The loop costs nothing: each operator it reads pays for the report that its operand may need. -/
theorem operators_succ (ih : AllCharge n) (min : Precedence) (left : Option (Expr Unit))
    (p : Cursor) : Charges (Production.operators (n + 1) min left p) p.charge := by
  rw [Production.operators]
  split
  · split
    · exact .of_some (Nat.le_refl _)
    · next follow hfollow =>
      have hp : 1 < p.left := one_lt_left_of_peek (by
        intro he; rw [he] at hfollow; cases hfollow)
      have hadvance := charge_advance (p := p) (by omega)
      refine .bind (ih.extend follow left p.advance (by rw [left_advance]; omega)) fun left q hq => ?_
      exact (ih.operators min left q).mono (by omega)
  · exact .of_some (Nat.le_refl _)

theorem extend_succ (ih : AllCharge n) (follow : Follow) (left : Option (Expr Unit)) (p : Cursor)
    (hp : 0 < p.left) : Charges (Production.extend (n + 1) follow left p) (p.charge + 1) := by
  cases follow <;> rw [Production.extend]
  case operation op => exact .bind (ih.next _ hp) fun right q hq => .of_some (by omega)
  case call => exact .bind (ih.elements _ p (by decide) hp) fun args q hq => .of_some hq
  case index =>
    refine .bind (ih.next _ hp) fun key q hq => ?_
    exact .expect (by decide) (fun r hr => .of_some (by omega)) (fun r hr _ => .of_some (by omega))

theorem elements_succ (ih : AllCharge n) (close : TokenKind) (p : Cursor) (hclose : close ≠ .eof)
    (hp : 0 < p.left) : Charges (Production.elements (n + 1) close p) (p.charge + 1) := by
  rw [Production.elements]
  split
  · have := p.charge_advance_le
    exact .of_some (by omega)
  · refine .bind (ih.next _ hp) fun first q hq => ?_
    refine .bind (ih.moreElements q) fun rest r hr => ?_
    exact .expect hclose (fun s hs => .of_some (by omega)) (fun s hs _ => .of_some (by omega))

theorem moreElements_succ (ih : AllCharge n) (p : Cursor) :
    Charges (Production.moreElements (n + 1) p) p.charge := by
  rw [Production.moreElements]
  split
  · next hcomma =>
    have hp : 1 < p.left := one_lt_left_of_peek (by rw [hcomma]; decide)
    have hadvance := p.charge_advance_le
    refine .bind (ih.next _ (p := p.advance) (by rw [left_advance]; omega)) fun x q hq => ?_
    refine .bind (ih.moreElements q) fun rest r hr => .of_some ?_
    omega
  · exact .of_some (Nat.le_refl _)

theorem pairs_succ (ih : AllCharge n) (p : Cursor) (hp : 0 < p.left) :
    Charges (Production.pairs (n + 1) p) (p.charge + 1) := by
  rw [Production.pairs]
  split
  · have := p.charge_advance_le
    exact .of_some (by omega)
  · refine .bind (ih.next _ hp) fun key q hq => ?_
    refine .expect (by decide) (fun r hr => .of_some (by omega)) fun r hr hr0 => ?_
    -- the colon pays for what goes wrong behind the value
    refine .bind (ih.next _ hr0) fun value s hs => ?_
    dsimp only
    split
    · have := s.charge_advance_le
      exact .of_some (by omega)
    · refine .expect (by decide) (fun t ht => .of_some (by omega)) fun t ht ht0 => ?_
      refine .bind (ih.pairs t ht0) fun rest u hu => .of_some (show u.charge ≤ p.charge + 1 from ?_)
      omega

theorem conditional_succ (ih : AllCharge n) (p : Cursor) (hp : 0 < p.left) :
    Charges (Production.conditional (n + 1) p) (p.charge + 1) := by
  rw [Production.conditional]
  refine .bind (ih.next _ hp) fun test q hq => ?_
  refine .expect (by decide) (fun r hr => .of_some (by omega)) fun r hr hr0 => ?_
  refine .bind (ih.block hr0) fun yes s hs => ?_
  have hadvance := s.charge_advance_le
  dsimp only
  split
  · refine .expect (by decide) (fun t ht => .of_some (by omega)) fun t ht ht0 => ?_
    exact .bind (ih.block ht0) fun no u hu => .of_some (show u.charge ≤ p.charge + 1 by omega)
  · exact .of_some (by omega)

theorem function_succ (ih : AllCharge n) (p : Cursor) :
    Charges (Production.function (n + 1) p) (p.charge + 1) := by
  rw [Production.function]
  refine .expect (by decide) (fun q hq => .of_some (by omega)) fun q hq hq0 => ?_
  refine .bind (parameters_charges hq0) fun params r hr => ?_
  cases params with
  | none => exact .of_some (by omega)
  | some params =>
    refine .expect (by decide) (fun s hs => .of_some (by omega)) fun s hs hs0 => ?_
    exact .bind (ih.block hs0) fun body t ht => .of_some (by omega)

/-- At the end of the source there are no statements, and nothing is reported. -/
theorem statements_of_left_eq_zero {inBlock : Bool} (h : p.left = 0) :
    Charges (Production.statements n inBlock p) p.charge := by
  cases n with
  | zero => exact .of_none
  | succ n =>
    have hend : p.current.kind = .eof := by
      rw [current_kind, List.length_eq_zero_iff.mp h]
      rfl
    rw [Production.statements, if_pos (Or.inl hend)]
    exact .of_some (Nat.le_refl _)

/-- Statements cost one report at most, since the token on which one ends pays for the next. -/
theorem statements_succ (ih : AllCharge n) (inBlock : Bool) (p : Cursor) :
    Charges (Production.statements (n + 1) inBlock p) (p.charge + 1) := by
  rw [Production.statements]
  split
  · exact .of_some (by omega)
  · refine .bind (ih.statement p) fun s q hq => ?_
    -- a token that is left pays for the statement; if none is left, this was the last one
    have hrest : Charges (Production.statements n inBlock q.advance) (p.charge + 1) := by
      by_cases hleft : 0 < q.left
      · have hadvance := charge_advance hleft
        exact (ih.statements inBlock q.advance).mono (by omega)
      · have hadvance := q.charge_advance_le
        refine (statements_of_left_eq_zero (p := q.advance) ?_).mono (by omega)
        rw [left_advance]
        omega
    exact .bind hrest fun rest r hr => .of_some hr

/-- A statement made of an expression, with the semicolon after it. -/
theorem terminated {α : Type} {m : Option (Option (Expr Unit) × Cursor)} {k : Nat}
    {f : Option (Expr Unit) → α} (h : Charges m k) :
    Charges (m >>= fun (x, q) => some (f x, q.skipTerminator)) k :=
  .bind h fun _ q hq => .of_some (Nat.le_trans q.charge_skipTerminator_le hq)

theorem statement_succ (ih : AllCharge n) (p : Cursor) :
    Charges (Production.statement (n + 1) p) (p.charge + 1) := by
  rw [Production.statement]
  split
  · refine .expect (by decide) (fun q hq => .of_some (by omega)) fun q hq _ => ?_
    refine .expect (by decide) (fun r hr => .of_some (by omega)) fun r hr hr0 => ?_
    exact terminated ((ih.next _ hr0).mono (by omega))
  · have hadvance := p.charge_advance_le
    exact terminated ((ih.expression _ p.advance).mono (by omega))
  · exact terminated (ih.expression _ p)

end AllCharge

/-- **Productions add at most one to the charge.** -/
theorem charges (n : Nat) : AllCharge n := by
  induction n with
  | zero => constructor <;> intros <;> exact .of_none
  | succ n ih =>
    exact {
      expression := ih.expression_succ
      operand := ih.operand_succ
      operators := ih.operators_succ
      extend := ih.extend_succ
      elements := ih.elements_succ
      moreElements := ih.moreElements_succ
      pairs := ih.pairs_succ
      conditional := ih.conditional_succ
      function := ih.function_succ
      statements := ih.statements_succ
      statement := ih.statement_succ }

end Production

/-- **There are at most as many diagnostics as tokens**, the ending token included. -/
theorem diagnostics_length_le_tokens (source : String) :
    (parse source).diagnostics.length ≤ (tokenize source).length := by
  have hcharge := (Production.charges _).statements false (Cursor.ofSource source) _ _
    (Cursor.ofSource source).program_eq
  have hdiagnostics : (parse source).diagnostics.length =
      (Cursor.ofSource source).program.2.reports.size := by
    simp [Parsed.diagnostics, parse]
  have htokens : (tokenize source).length = (Cursor.ofSource source).charge + 1 := by
    simp [length_tokenize, Cursor.charge, Cursor.ofSource]
  rw [hdiagnostics, htokens]
  exact Nat.le_trans (Nat.le_add_right _ _) hcharge

end ClosureLang
