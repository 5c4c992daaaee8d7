import ClosureLang.Parse.Diagnostic
import ClosureLang.Token.Scanner

/-!
# The parser's cursor

A cursor is a place in a list of tokens together with the reports recorded so far. It looks at the
current token and at the one after it, and it only moves forward. Past the last token it stands on
the ending token and stays there.
-/

namespace ClosureLang

/-- A place in the tokens of a source.

`tokens` are the tokens from the current one on, without the ending token, which stands at offset
`stop`. -/
structure Cursor where
  tokens : List Token
  stop : Nat
  reports : Array Report := #[]
  deriving DecidableEq, Repr

namespace Cursor

/-- The cursor at the first token of a source. -/
def ofSource (source : String) : Cursor :=
  let scanner := Scanner.ofString source
  ⟨scanner.tokens, scanner.stop, #[]⟩

/-- The token on which the cursor stands. -/
def current (p : Cursor) : Token := p.tokens.headD (Token.ending p.stop)

/-- The token after the current one. -/
def peek (p : Cursor) : Token := p.tokens.tail.headD (Token.ending p.stop)

/-- One token further. -/
def advance (p : Cursor) : Cursor := { p with tokens := p.tokens.tail }

/-- Records a diagnostic at the current token. -/
def record (p : Cursor) (d : Diagnostic) : Cursor :=
  { p with reports := p.reports.push ⟨d, p.current.start⟩ }

/-- Moves on if the next token is of the wanted kind; otherwise records that it is not. -/
def expect (p : Cursor) (wanted : TokenKind) : Bool × Cursor :=
  if p.peek.kind = wanted then (true, p.advance)
  else (false, p.record (.unexpected wanted p.peek.kind))

/-- Moves onto a semicolon if one comes next. -/
def skipTerminator (p : Cursor) : Cursor :=
  if p.peek.kind = .semicolon then p.advance else p

/-- The diagnostics recorded so far, first one first. -/
def diagnostics (p : Cursor) : List Diagnostic := p.reports.toList.map Report.diagnostic

/-! ## How many tokens are left -/

/-- How many tokens are left, the current one included and the ending one not. -/
def left (p : Cursor) : Nat := p.tokens.length

@[simp] theorem left_advance (p : Cursor) : p.advance.left = p.left - 1 := by
  simp [left, advance]

@[simp] theorem left_record (p : Cursor) (d : Diagnostic) : (p.record d).left = p.left := rfl

theorem left_skipTerminator_le (p : Cursor) : p.skipTerminator.left ≤ p.left := by
  unfold skipTerminator
  split
  · simp
  · exact Nat.le_refl _

theorem left_expect_le (p : Cursor) (k : TokenKind) : (p.expect k).2.left ≤ p.left := by
  unfold expect
  split <;> simp

/-- A current token that is not the ending one is one of the tokens left. -/
theorem left_pos_of_current {p : Cursor} (h : p.current.kind ≠ .eof) : 0 < p.left := by
  cases ht : p.tokens with
  | nil => simp [current, ht] at h
  | cons t ts => simp [left, ht]

/-- Nothing but the ending token follows the last token. -/
theorem one_lt_left_of_peek {p : Cursor} (h : p.peek.kind ≠ .eof) : 1 < p.left := by
  cases ht : p.tokens with
  | nil => simp [peek, ht] at h
  | cons t ts =>
    cases ts with
    | nil => simp [peek, ht] at h
    | cons u us => simp [left, ht]

/-- If a wanted token came next, there were at least two tokens, and one is behind. -/
theorem left_expect_of_true {p q : Cursor} {k : TokenKind} (hk : k ≠ .eof)
    (h : p.expect k = (true, q)) : 1 < p.left ∧ q.left = p.left - 1 := by
  unfold expect at h
  split at h
  · next hp =>
    cases h
    exact ⟨one_lt_left_of_peek (by rw [hp]; exact hk), left_advance p⟩
  · simp at h

end Cursor

end ClosureLang
