import ClosureLang.Proofs.Parse.Mending
import ClosureLang.Proofs.Parse.Recursion

/-!
# How a construct was read

What the end of a construct tells about how it was read. Which operators are read behind an operand
does not depend on the operand, and a looser loop reads what a tighter one reads and goes on where
that one stopped (`operators_resume`). If nothing is reported, each token that a construct wants is
there (`pairs_of_clean`, `conditional_of_clean`, `function_of_clean`).
-/

namespace ClosureLang

open Grammar

/-- The kinds of tokens that are an operand by themselves. -/
def TokenKind.isOperand : TokenKind → Bool
  | ident | int | string | trueWord | falseWord => true
  | _ => false

/-! ## Operators behind an operand -/

namespace Production

variable {n m : Nat} {min hi : Precedence} {p q r : Cursor} {x y : Option (Expr Unit)}

theorem extend_left {follow : Follow} {left : Option (Expr Unit)}
    (h : extend n follow left p = some (x, q)) (left' : Option (Expr Unit)) :
    ∃ y, extend n follow left' p = some (y, q) := by
  cases n with
  | zero => cases h
  | succ n =>
    cases follow <;> rw [extend] at h ⊢ <;>
      obtain ⟨⟨a, r⟩, ha, h⟩ := Option.bind_eq_some_iff.mp h <;>
      simp only [ha, Option.bind_eq_bind, Option.bind_some]
    case operation op =>
      cases h
      exact ⟨_, rfl⟩
    case call =>
      cases h
      exact ⟨_, rfl⟩
    case index =>
      rcases r.expect_cases .rbracket with ⟨_, he⟩ | ⟨_, he⟩ <;> simp only [he] at h ⊢ <;> cases h
      · exact ⟨_, rfl⟩
      · exact ⟨_, rfl⟩

theorem operators_left {left : Option (Expr Unit)} (h : operators n min left p = some (x, q))
    (left' : Option (Expr Unit)) : ∃ y, operators n min left' p = some (y, q) := by
  induction n generalizing p left left' with
  | zero => cases h
  | succ n ih =>
    rw [operators] at h ⊢
    split at h
    · next hmin =>
      rw [if_pos hmin]
      cases hfollow : p.peek.kind.follow? with
      | none =>
        rw [hfollow] at h
        cases h
        exact ⟨left', rfl⟩
      | some follow =>
        rw [hfollow] at h
        obtain ⟨⟨a, r⟩, ha, h⟩ := Option.bind_eq_some_iff.mp h
        obtain ⟨a', ha'⟩ := extend_left ha left'
        obtain ⟨y, hy⟩ := ih h a'
        exact ⟨y, Option.bind_eq_some_iff.mpr ⟨_, ha', hy⟩⟩
    · next hmin =>
      rw [if_neg hmin]
      cases h
      exact ⟨left', rfl⟩

/-- **A looser loop reads what a tighter one reads, and goes on.** -/
theorem operators_resume {left mid : Option (Expr Unit)} (h : operators n hi left p = some (x, q))
    (hle : min.rank ≤ hi.rank) (hrest : operators m min mid q = some (y, r))
    (left' : Option (Expr Unit)) : ∃ k z, operators k min left' p = some (z, r) := by
  induction n generalizing p left left' with
  | zero => cases h
  | succ n ih =>
    rw [operators] at h
    split at h
    · next hhi =>
      cases hfollow : p.peek.kind.follow? with
      | none =>
        rw [hfollow] at h
        cases h
        exact ⟨m, operators_left hrest left'⟩
      | some follow =>
        rw [hfollow] at h
        obtain ⟨⟨a, u⟩, ha, h⟩ := Option.bind_eq_some_iff.mp h
        obtain ⟨a', ha'⟩ := extend_left ha left'
        obtain ⟨k, z, hz⟩ := ih h a'
        have hmin : min < p.peek.kind.precedence := Nat.lt_of_le_of_lt hle hhi
        refine ⟨max n k + 1, z, ?_⟩
        rw [operators, if_pos hmin, hfollow]
        exact Option.bind_eq_some_iff.mpr ⟨_,
          Refines.keep (fun n => (refines n).extend _ _ _) (Nat.le_max_left n k) ha',
          Refines.keep (fun n => (refines n).operators _ _ _) (Nat.le_max_right n k) hz⟩
    · cases h
      exact ⟨m, operators_left hrest left'⟩

end Production

/-! ## Constructs without a report -/

namespace Cursor

variable {p q : Cursor}

/-- What has no report at its end had none before. -/
theorem Moves.clean (h : p.Moves q) (hq : q.Clean) : p.Clean := by
  have hreports := h.reports
  rw [hq, List.prefix_nil] at hreports
  exact Array.toList_eq_nil_iff.mp hreports

theorem Clean.quiet (hq : q.Clean) (p : Cursor) : Quiet p q := by
  rw [Quiet, hq]
  exact Nat.zero_le _

/-- If a missing token ends a production and nothing is reported, the token is there. -/
theorem Clean.expect {α : Type} {k : TokenKind} {yes : Cursor → Option (Option α × Cursor)}
    {a : Option α} (hq : q.Clean)
    (h : (match p.expect k with
      | (false, r) => some (none, r)
      | (true, r) => yes r) = some (a, q)) : p.peek.kind = k ∧ yes p.advance = some (a, q) :=
  Quiet.expect (Moves.refl p) h (hq.quiet p)

end Cursor

namespace Production

open Cursor

/-- An operand of one token is read where it stands. -/
theorem operand_of_isOperand {n : Nat} {lead : Lead} {p q : Cursor} {x : Option (Expr Unit)}
    (hlead : p.current.kind.lead? = some lead) (hkind : p.current.kind.isOperand = true)
    (h : Production.operand n lead p = some (x, q)) (hq : q.Clean) : q = p := by
  cases n with
  | zero => cases h
  | succ n =>
    rw [kind_of_lead? hlead] at hkind
    cases lead with
    | name =>
      cases h
      rfl
    | integer =>
      rw [Production.operand] at h
      split at h <;> cases h
      · rfl
      · exact absurd hq (not_clean_record _ _)
    | text =>
      cases h
      rfl
    | truth b =>
      cases h
      rfl
    | unary op => cases op <;> cases hkind
    | _ => cases hkind

/-- Where no operator comes, none is read. -/
theorem operators_of_follow {n : Nat} {min : Precedence} {left x : Option (Expr Unit)}
    {p q : Cursor} (hfollow : p.peek.kind.follow? = none)
    (h : Production.operators n min left p = some (x, q)) : q = p := by
  cases n with
  | zero => cases h
  | succ n =>
    rw [Production.operators, hfollow] at h
    split at h <;> cases h <;> rfl

/-- How the pairs of a hash literal were read, if nothing was reported. -/
theorem pairs_of_clean {n : Nat} {p q : Cursor}
    {x : Option (List (Option (Expr Unit × Expr Unit)))}
    (h : Production.pairs (n + 1) p = some (x, q)) (hq : q.Clean)
    (hclose : p.peek.kind ≠ .rbrace) :
    ∃ key r value u, Production.expression n .lowest p.advance = some (key, r) ∧ r.Clean ∧
      r.peek.kind = .colon ∧
      Production.expression n .lowest r.advance.advance = some (value, u) ∧ u.Clean ∧
      (u.peek.kind = .rbrace ∧ q = u.advance ∨
        u.peek.kind ≠ .rbrace ∧ u.peek.kind = .comma ∧
          ∃ rest, Production.pairs n u.advance = some (rest, q)) := by
  rw [Production.pairs, if_neg hclose] at h
  obtain ⟨⟨key, r⟩, hkey, h⟩ := Option.bind_eq_some_iff.mp h
  obtain ⟨hcolon, h⟩ := hq.expect h
  obtain ⟨⟨value, u⟩, hvalue, h⟩ := Option.bind_eq_some_iff.mp h
  have hru := (Production.moves n).expression _ _ _ _ hvalue
  by_cases hend : u.peek.kind = .rbrace
  · simp only [if_pos hend] at h
    cases h
    exact ⟨key, r, value, u, hkey, hru.clean hq, hcolon, hvalue, hq, Or.inl ⟨hend, rfl⟩⟩
  · simp only [if_neg hend] at h
    obtain ⟨hcomma, h⟩ := hq.expect h
    obtain ⟨⟨rest, v⟩, hrest, h⟩ := Option.bind_eq_some_iff.mp h
    cases h
    have hu : u.Clean := ((Production.moves n).pairs _ _ _ hrest).clean hq
    exact ⟨key, r, value, u, hkey, hru.clean hu, hcolon, hvalue, hu,
      Or.inr ⟨hend, hcomma, rest, hrest⟩⟩

/-- How an `if` was read, if nothing was reported. -/
theorem conditional_of_clean {n : Nat} {p q : Cursor} {x : Option (Expr Unit)}
    (h : Production.conditional (n + 1) p = some (x, q)) (hq : q.Clean) :
    ∃ test r yes u, Production.expression n .lowest p.advance = some (test, r) ∧ r.Clean ∧
      r.peek.kind = .lbrace ∧
      Production.statements n true r.advance.advance = some (yes, u) ∧ u.Clean ∧
      (u.peek.kind ≠ .elseWord ∧ q = u ∨
        u.peek.kind = .elseWord ∧ u.advance.peek.kind = .lbrace ∧
          ∃ no, Production.statements n true u.advance.advance.advance = some (no, q)) := by
  rw [Production.conditional] at h
  obtain ⟨⟨test, r⟩, htest, h⟩ := Option.bind_eq_some_iff.mp h
  obtain ⟨hopen, h⟩ := hq.expect h
  obtain ⟨⟨yes, u⟩, hyes, h⟩ := Option.bind_eq_some_iff.mp h
  have hru := (Production.moves n).statements _ _ _ _ hyes
  by_cases helse : u.peek.kind = .elseWord
  · simp only [if_pos helse] at h
    obtain ⟨hopen', h⟩ := hq.expect h
    obtain ⟨⟨no, v⟩, hno, h⟩ := Option.bind_eq_some_iff.mp h
    cases h
    have hu : u.Clean := ((Production.moves n).statements _ _ _ _ hno).clean hq
    exact ⟨test, r, yes, u, htest, hru.clean hu, hopen, hyes, hu, Or.inr ⟨helse, hopen', no, hno⟩⟩
  · simp only [if_neg helse] at h
    cases h
    exact ⟨test, r, yes, q, htest, hru.clean hq, hopen, hyes, hq, Or.inl ⟨helse, rfl⟩⟩

/-- How a function literal was read, if nothing was reported. -/
theorem function_of_clean {n : Nat} {p q : Cursor} {x : Option (Expr Unit)}
    (h : Production.function (n + 1) p = some (x, q)) (hq : q.Clean) :
    p.peek.kind = .lparen ∧ ∃ params r body,
      parameters n p.advance = some (params, r) ∧ r.Clean ∧ r.peek.kind = .lbrace ∧
      Production.statements n true r.advance.advance = some (body, q) := by
  rw [Production.function] at h
  obtain ⟨hopen, h⟩ := hq.expect h
  obtain ⟨⟨params, r⟩, hparams, h⟩ := Option.bind_eq_some_iff.mp h
  cases params with
  | none =>
    cases h
    obtain ⟨ns, hns, _⟩ := parameters_sound hparams (hq.quiet _)
    cases hns
  | some params =>
    obtain ⟨hbrace, h⟩ := hq.expect h
    obtain ⟨⟨body, u⟩, hbody, h⟩ := Option.bind_eq_some_iff.mp h
    cases h
    have hr : r.Clean := ((Production.moves n).statements _ _ _ _ hbody).clean hq
    exact ⟨hopen, some params, r, body, hparams, hr, hbrace, hbody⟩

/-- A statement that is just an expression. -/
theorem statement_alone {n : Nat} {p : Cursor} (hlet : p.current.kind ≠ .letWord)
    (hreturn : p.current.kind ≠ .returnWord) :
    Production.statement (n + 1) p = (do
      let (x, q) ← Production.expression n .lowest p
      some (x.map .expr, q.skipTerminator)) := by
  rw [Production.statement]
  split
  · next hc => exact absurd hc hlet
  · next hc => exact absurd hc hreturn
  · rfl

end Production

end ClosureLang
