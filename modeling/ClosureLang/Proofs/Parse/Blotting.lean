import ClosureLang.Proofs.Parse.Inversion
import ClosureLang.Proofs.Token.Blotting

/-!
# A blot on a shielded operand

An operand that is a single token is blotted by an illegal character. The parser reports that no
operand starts there and goes on without one. It does not read the operators behind the blot with it,
but if the operand stands behind an operator itself, the loop that reads this one reads them too. So
if there is such a loop, or no operator behind the blot, the operand is shielded (`Spot.Shielded`):
the blotted source is read as the source is, and the blot is all that is reported
(`Spot.Shielded.diagnostics_blot`).

Cursors at the same place of the two sources are in step (`Spot.InStep`). Each production keeps them
so, but for an expression that starts on the blot, which lags behind what the source has read
(`Production.Lags`) until the loop around it catches up.
-/

namespace ClosureLang

open Grammar

/-! ## Kinds of tokens -/

namespace TokenKind

/-- The kinds of operators, those before an operand and those between operands. -/
def isOperator : TokenKind → Bool
  | bang | plus | minus | star | power | slash | equal | notEqual | greater | less => true
  | _ => false

/-- The kinds that are neither an operand nor an operator: punctuation, keywords and the end. -/
def isFrame (k : TokenKind) : Bool := !k.isOperand && !k.isOperator && k != .illegal

/-- What a kind may be in a blotted source: the same, or illegal in place of an operand. -/
def SameKind (k k' : TokenKind) : Prop := k' = k ∨ k.isOperand = true ∧ k' = .illegal

namespace SameKind

variable {k k' : TokenKind}

/-- Punctuation is never blotted, so it is at the same places. -/
theorem eq_iff (h : SameKind k k') {j : TokenKind} (hj : j.isFrame = true) : k' = j ↔ k = j := by
  rcases h with rfl | ⟨hk, rfl⟩
  · rfl
  · constructor
    · rintro rfl
      cases hj
    · rintro rfl
      simp [isFrame, hk] at hj

/-- Statements stop at the same place. -/
theorem stop_iff (h : SameKind k k') (inBlock : Bool) :
    (k' = .eof ∨ inBlock = true ∧ k' = .rbrace) ↔ (k = .eof ∨ inBlock = true ∧ k = .rbrace) :=
  or_congr (h.eq_iff rfl) (and_congr_right fun _ => h.eq_iff rfl)

/-- An operand and an illegal token bind nothing. -/
theorem precedence_eq (h : SameKind k k') : k'.precedence = k.precedence := by
  rcases h with rfl | ⟨hk, rfl⟩
  · rfl
  · revert hk
    cases k <;> decide

theorem follow?_eq (h : SameKind k k') : k'.follow? = k.follow? := by
  rcases h with rfl | ⟨hk, rfl⟩
  · rfl
  · revert hk
    cases k <;> decide

end SameKind

end TokenKind

/-- Whether names of parameters come next, by the kinds of the tokens before, last one first: the
parenthesis of a function literal, and after it names with commas. -/
def inParameters : List TokenKind → Bool
  | .lparen :: .fnWord :: _ => true
  | .comma :: .ident :: ks => inParameters ks
  | _ => false

/-- Whether a name that comes next is bound and not looked up, by the kinds of the tokens before,
last one first. -/
def binds : List TokenKind → Bool
  | .letWord :: _ => true
  | ks => inParameters ks

theorem binds_of_inParameters {ks : List TokenKind} (h : inParameters ks = true) :
    binds ks = true := by
  unfold binds
  split
  · rfl
  · exact h

theorem Cursor.word_current (p : Cursor) :
    p.current.word = (p.tokens.map Token.word).headD (.eof, "") := by
  unfold Cursor.current
  cases p.tokens <;> rfl

/-! ## The place of an operand -/

/-- A token that is an operand by itself, with the tokens before and after it. -/
structure Spot where
  before : List Token
  token : Token
  after : List Token
  isOperand : token.kind.isOperand = true
  /-- The token is not a name that is bound. -/
  unbound : binds (before.map Token.kind).reverse = false

namespace Spot

/-- All tokens. -/
def tokens (b : Spot) : List Token := b.before ++ b.token :: b.after

/-- The operators behind the operand are read wherever it fails: it stands behind an operator, whose
loop goes on, or there are none. -/
def Shielded (b : Spot) : Prop :=
  (∃ t ∈ b.before.getLast?, t.kind.isOperator = true) ∨ (firstKind b.after).follow? = none

variable (b : Spot) (s : String)

/-- The tokens `done` are read at `p`, and the spot is still to come. -/
def Ahead (done : List Token) (p : Cursor) : Prop :=
  ∃ pre, b.before = done ++ pre ∧ p.tokens = pre ++ b.token :: b.after

/-- The cursor stands on the spot. -/
def At (p : Cursor) : Prop := p.tokens = b.token :: b.after

/-- Two cursors at the same place of a source and of its blotted form, in which `s` is written over
the spot: before the spot is reported, or after. -/
inductive InStep (p p' : Cursor) : Prop where
  | ahead {done pre} (hbefore : b.before = done ++ pre)
      (htokens : p.tokens = pre ++ b.token :: b.after)
      (hwords : p'.tokens.map Token.word =
        pre.map Token.word ++ (.illegal, s) :: b.after.map Token.word)
      (hclean : p'.diagnostics = [])
  | behind (hafter : p.tokens <:+ b.after)
      (hwords : p'.tokens.map Token.word = p.tokens.map Token.word)
      (hreported : p'.diagnostics = [.noOperand .illegal])

/-- If the spot is where the cursor stands, no operator comes after it. -/
def Open (p : Cursor) : Prop := b.At p → (firstKind b.after).follow? = none

/-- In step, and an expression of the lowest level may start here. -/
structure Ready (p p' : Cursor) : Prop where
  inStep : b.InStep s p p'
  isOpen : b.Open p

variable {b s} {p p' q q' : Cursor}

/-- Behind the blot the cursor is not on it any more. -/
theorem not_at_of_suffix (h : p.tokens <:+ b.after) : ¬ b.At p := by
  intro hat
  rw [hat] at h
  have := h.length_le
  simp at this

theorem not_at_of_kind (h : p.current.kind.isOperand = false) : ¬ b.At p := by
  intro hat
  rw [Cursor.current_of_tokens hat, b.isOperand] at h
  cases h

/-- A token that has been read stands before the spot if the spot is still to come. -/
theorem Ahead.back {done : List Token} (hahead : b.Ahead done p.advance) (h : b.InStep s p p')
    {t : Token} {ts : List Token} (hts : p.tokens = t :: ts) :
    ∃ done', done = done' ++ [t] ∧ b.Ahead done' p := by
  obtain ⟨pre, hbefore, htokens⟩ := hahead
  rw [Cursor.tokens_advance, hts, List.tail_cons] at htokens
  cases h with
  | @ahead done₁ pre₁ hbefore₁ htokens₁ =>
    rw [hts, htokens] at htokens₁
    cases pre₁ with
    | nil =>
      have hlength := congrArg List.length htokens₁
      simp at hlength
      omega
    | cons u pre₁ =>
      obtain ⟨rfl, hpre⟩ := List.cons.inj htokens₁
      obtain rfl := List.append_cancel_right hpre
      have hdone : done ++ pre = done₁ ++ [t] ++ pre := by
        rw [← hbefore, hbefore₁, List.append_assoc]
        rfl
      exact ⟨done₁, List.append_cancel_right hdone, t :: pre, hbefore₁, by rw [hts, htokens]; rfl⟩
  | behind hafter =>
    have hlength := hafter.length_le
    rw [hts, htokens] at hlength
    simp at hlength
    omega

theorem Ahead.back_kind {done : List Token} (hahead : b.Ahead done p.advance)
    (h : b.InStep s p p') {k : TokenKind} (hk : p.current.kind = k) (hend : k ≠ .eof) :
    ∃ done', (done.map Token.kind).reverse = k :: (done'.map Token.kind).reverse ∧
      b.Ahead done' p := by
  obtain ⟨t, ts, hts, rfl⟩ := Cursor.exists_of_current hk hend
  obtain ⟨done', rfl, hahead'⟩ := hahead.back h hts
  exact ⟨done', by simp, hahead'⟩

theorem At.ahead (hat : b.At p) : b.Ahead b.before p := ⟨[], (List.append_nil _).symm, hat⟩

/-- The cursor stands on the spot if nothing is left before it. -/
theorem At.nil (hat : b.At p) {pre : List Token} (h : p.tokens = pre ++ b.token :: b.after) :
    pre = [] := by
  rw [hat] at h
  have hlength := congrArg List.length h
  simp at hlength
  exact hlength

namespace InStep

/-- Both cursors stand on the same word, unless they stand on the spot. -/
theorem current_word (h : b.InStep s p p') (hat : ¬ b.At p) :
    p'.current.word = p.current.word := by
  rw [Cursor.word_current, Cursor.word_current]
  cases h with
  | @ahead done pre _ htokens hwords =>
    cases pre with
    | nil => exact absurd htokens hat
    | cons t pre => rw [hwords, htokens]; rfl
  | behind _ hwords => rw [hwords]

theorem current_kind (h : b.InStep s p p') (hat : ¬ b.At p) : p'.current.kind = p.current.kind :=
  congrArg Prod.fst (h.current_word hat)

/-- On the spot, what is written over it comes first. -/
theorem words_of_at (h : b.InStep s p p') (hat : b.At p) :
    p'.tokens.map Token.word = (.illegal, s) :: b.after.map Token.word ∧ p'.diagnostics = [] := by
  cases h with
  | ahead _ htokens hwords hclean =>
    rw [hat.nil htokens] at hwords
    exact ⟨hwords, hclean⟩
  | behind hafter => exact absurd hat (not_at_of_suffix hafter)

theorem kind_of_at (h : b.InStep s p p') (hat : b.At p) : p'.current.kind = .illegal := by
  have hword := p'.word_current
  rw [(h.words_of_at hat).1] at hword
  exact congrArg Prod.fst hword

theorem sameKind (h : b.InStep s p p') : p.current.kind.SameKind p'.current.kind := by
  by_cases hat : b.At p
  · refine Or.inr ⟨?_, h.kind_of_at hat⟩
    rw [Cursor.current_of_tokens hat, b.isOperand]
  · exact Or.inl (h.current_kind hat)

/-- Both cursors move on, unless they stand on the spot. -/
theorem advance (h : b.InStep s p p') (hat : ¬ b.At p) : b.InStep s p.advance p'.advance := by
  cases h with
  | @ahead done pre hbefore htokens hwords hclean =>
    cases pre with
    | nil => exact absurd htokens hat
    | cons t pre =>
      refine @ahead _ _ _ _ (done ++ [t]) pre ?_ ?_ ?_ hclean
      · rw [hbefore, List.append_assoc]
        rfl
      · rw [Cursor.tokens_advance, htokens]
        rfl
      · rw [Cursor.tokens_advance, List.map_tail, hwords]
        rfl
  | behind hafter hwords hreported =>
    refine .behind ((List.tail_suffix _).trans hafter) ?_ hreported
    rw [Cursor.tokens_advance, List.map_tail, hwords, Cursor.tokens_advance, List.map_tail]

/-- Behind a token that is no operator an expression of the lowest level may start. -/
theorem ready (h : b.InStep s p p') (hshielded : b.Shielded) (hat : ¬ b.At p)
    (hkind : p.current.kind.isOperator = false) : b.Ready s p.advance p'.advance := by
  refine ⟨h.advance hat, fun hnext => ?_⟩
  rcases hshielded with ⟨t, ht, hoperator⟩ | hfollow
  · cases htokens : p.tokens with
    | nil =>
      unfold At at hnext
      rw [Cursor.tokens_advance, htokens] at hnext
      cases hnext
    | cons u us =>
      obtain ⟨done, hdone, -⟩ := (At.ahead hnext).back h htokens
      rw [hdone, List.getLast?_append, List.getLast?_singleton] at ht
      cases ht
      rw [Cursor.current_of_tokens htokens, hoperator] at hkind
      cases hkind
  · exact hfollow

end InStep

/-- Both cursors stand on the last token of a construct, or one does and the other on what is written
over it. -/
def Ended (b : Spot) (s : String) (q q' : Cursor) : Prop := b.Ready s q.advance q'.advance

/-- What is written over the spot is reported, and it is behind. -/
theorem InStep.ended_of_at (h : b.InStep s p p') (hat : b.At p) :
    b.Ended s p (p'.record (.noOperand .illegal)) := by
  obtain ⟨hwords, hclean⟩ := h.words_of_at hat
  have htokens : p.advance.tokens = b.after := by
    rw [Cursor.tokens_advance, hat]
    rfl
  have hafter : p.advance.tokens <:+ b.after := ⟨[], htokens⟩
  refine ⟨.behind hafter ?_ ?_, fun hnext => absurd hnext (not_at_of_suffix hafter)⟩
  · rw [htokens, Cursor.tokens_advance, List.map_tail]
    show (p'.tokens.map Token.word).tail = _
    rw [hwords]
    rfl
  · show (p'.record (.noOperand .illegal)).diagnostics = _
    rw [Cursor.diagnostics_record, hclean]
    rfl

namespace Ended

theorem sameKind (h : b.Ended s q q') : q.peek.kind.SameKind q'.peek.kind := h.inStep.sameKind

theorem peek_eq_iff (h : b.Ended s q q') {k : TokenKind} (hk : k.isFrame = true) :
    q'.peek.kind = k ↔ q.peek.kind = k :=
  h.sameKind.eq_iff hk

end Ended

/-- A token that frames expressions is read. -/
theorem InStep.ended (h : b.InStep s p p') (hshielded : b.Shielded) {k : TokenKind}
    (hp : p.current.kind = k) (hk : k.isFrame = true) : b.Ended s p p' := by
  simp only [TokenKind.isFrame, Bool.and_eq_true, Bool.not_eq_true'] at hk
  exact h.ready hshielded (not_at_of_kind (hp ▸ hk.1.1)) (hp ▸ hk.1.2)

namespace Ended

/-- A token that frames expressions comes next and is read. -/
theorem advance (h : b.Ended s q q') (hshielded : b.Shielded) {k : TokenKind}
    (hq : q.peek.kind = k) (hk : k.isFrame = true) : b.Ended s q.advance q'.advance :=
  h.inStep.ended hshielded hq hk

theorem expect (h : b.Ended s q q') {k : TokenKind} (hq : q.peek.kind = k) (hk : k.isFrame = true) :
    q'.expect k = (true, q'.advance) :=
  if_pos ((h.peek_eq_iff hk).mpr hq)

/-- A semicolon is skipped in both sources or in neither. -/
theorem skipTerminator (h : b.Ended s q q') (hshielded : b.Shielded) :
    b.Ended s q.skipTerminator q'.skipTerminator := by
  unfold Cursor.skipTerminator
  by_cases hq : q.peek.kind = .semicolon
  · rw [if_pos hq, if_pos ((h.peek_eq_iff rfl).mpr hq)]
    exact h.advance hshielded hq rfl
  · rw [if_neg hq, if_neg (mt (h.peek_eq_iff rfl).mp hq)]
    exact h

end Ended

end Spot

namespace Production

open Cursor

variable (b : Spot) (s : String)

/-- The blotted source is still behind `p`, from where the source has read operators up to `q`. -/
def Lags (min : Precedence) (p q q' : Cursor) : Prop :=
  b.Ended s p q' ∧ ∃ n left x, operators n min left p = some (x, q)

/-- Whatever a production has read of the source, without a report, a production that may go `k`
calls deep has read of the blotted source. Where an expression starts on the spot, the operators
after it are left to the loop around it. -/
structure AllInStep (k : Nat) : Prop where
  expression : ∀ {n min p p' x q x' q'}, b.InStep s p p' → min.rank ≤ Precedence.unary.rank →
    expression n min p = some (x, q) → q.Clean → expression k min p' = some (x', q') →
    b.Ended s q q' ∨ b.At p ∧ Lags b s min p q q'
  operand : ∀ {n lead p p' x q x' q'}, b.InStep s p p' → ¬ b.At p →
    p.current.kind.lead? = some lead → operand n lead p = some (x, q) → q.Clean →
    operand k lead p' = some (x', q') → b.Ended s q q' ∨ ∃ r, Lags b s .unary r q q'
  operators : ∀ {n min left left' p p' x q x' q'}, b.Ended s p p' →
    operators n min left p = some (x, q) → q.Clean → operators k min left' p' = some (x', q') →
    b.Ended s q q'
  extend : ∀ {n follow left left' p p' x q x' q'}, b.InStep s p p' →
    p.current.kind.follow? = some follow → extend n follow left p = some (x, q) → q.Clean →
    extend k follow left' p' = some (x', q') →
    b.Ended s q q' ∨ ∃ r, Lags b s p.current.kind.precedence r q q'
  elements : ∀ {n close p p' x q x' q'}, b.Ended s p p' → close.isFrame = true →
    elements n close p = some (x, q) → q.Clean → elements k close p' = some (x', q') →
    b.Ended s q q'
  moreElements : ∀ {n p p' x q x' q'}, b.Ended s p p' → moreElements n p = some (x, q) →
    q.Clean → moreElements k p' = some (x', q') → b.Ended s q q'
  pairs : ∀ {n p p' x q x' q'}, b.Ended s p p' → pairs n p = some (x, q) → q.Clean →
    pairs k p' = some (x', q') → b.Ended s q q'
  conditional : ∀ {n p p' x q x' q'}, b.Ended s p p' → conditional n p = some (x, q) → q.Clean →
    conditional k p' = some (x', q') → b.Ended s q q'
  function : ∀ {n p p' x q x' q'}, b.InStep s p p' → p.current.kind = .fnWord →
    function n p = some (x, q) → q.Clean → function k p' = some (x', q') → b.Ended s q q'
  statements : ∀ {n inBlock p p' x q x' q'}, b.Ready s p p' →
    statements n inBlock p = some (x, q) → q.Clean → statements k inBlock p' = some (x', q') →
    b.InStep s q q'
  statement : ∀ {n p p' x q x' q'}, b.Ready s p p' → statement n p = some (x, q) → q.Clean →
    statement k p' = some (x', q') → b.Ended s q q'

variable {b s}

/-! ## Names that are bound -/

/-- A name at `p` is that of a parameter. -/
def Listed (b : Spot) (p : Cursor) : Prop :=
  ∀ done, b.Ahead done p → inParameters (done.map Token.kind).reverse = true

theorem Listed.not_at {p : Cursor} (h : Listed b p) : ¬ b.At p := by
  intro hat
  have hbinds := binds_of_inParameters (h _ hat.ahead)
  rw [b.unbound] at hbinds
  cases hbinds

/-- No parameter is blotted, so names are the same in both sources. -/
theorem names_inStep (hb : b.Shielded) {n k : Nat} {p p' q q' : Cursor}
    {x x' : Option (List String)} (hp : b.InStep s p p') (hlisted : Listed b p)
    (h : names n p = some (x, q)) (hq : q.Clean) (h' : names k p' = some (x', q')) :
    b.Ended s q q' ∧ x'.isSome = true := by
  induction k generalizing n p p' x x' with
  | zero => cases h'
  | succ k ih =>
    cases n with
    | zero => cases h
    | succ n =>
      rw [names] at h h'
      split at h
      · next hident =>
        rw [if_pos ((hp.current_kind hlisted.not_at).trans hident)] at h'
        have hended : b.Ended s p p' :=
          hp.ready hb hlisted.not_at (congrArg TokenKind.isOperator hident)
        split at h
        · next hcomma =>
          rw [if_pos ((hended.peek_eq_iff rfl).mpr hcomma)] at h'
          obtain ⟨⟨rest, r⟩, hrest, h⟩ := Option.bind_eq_some_iff.mp h
          obtain ⟨⟨rest', r'⟩, hrest', h'⟩ := Option.bind_eq_some_iff.mp h'
          cases h
          cases h'
          have hlisted' : Listed b p.advance.advance := by
            intro done hdone
            obtain ⟨done₁, hkinds₁, h₁⟩ := hdone.back_kind hended.inStep hcomma (by decide)
            obtain ⟨done₂, hkinds₂, h₂⟩ := h₁.back_kind hp hident (by decide)
            rw [hkinds₁, hkinds₂, inParameters]
            exact hlisted done₂ h₂
          obtain ⟨hended', hsome⟩ :=
            ih (hended.advance hb hcomma rfl).inStep hlisted' hrest hrest'
          exact ⟨hended', by rw [Option.isSome_map, hsome]⟩
        · next hcomma =>
          rw [if_neg (mt (hended.peek_eq_iff rfl).mp hcomma)] at h'
          cases h
          cases h'
          exact ⟨hended, rfl⟩
      · cases h
        exact absurd hq (not_clean_record _ _)

theorem parameters_inStep (hb : b.Shielded) {n k : Nat} {p p' q q' : Cursor}
    {x x' : Option (List String)} (hp : b.Ended s p p') (hlisted : Listed b p.advance)
    (h : parameters n p = some (x, q)) (hq : q.Clean) (h' : parameters k p' = some (x', q')) :
    b.Ended s q q' ∧ x'.isSome = true := by
  rw [parameters] at h h'
  split at h
  · next hclose =>
    rw [if_pos ((hp.peek_eq_iff rfl).mpr hclose)] at h'
    cases h
    cases h'
    exact ⟨hp.advance hb hclose rfl, rfl⟩
  · next hclose =>
    rw [if_neg (mt (hp.peek_eq_iff rfl).mp hclose)] at h'
    obtain ⟨⟨params, r⟩, hparams, h⟩ := Option.bind_eq_some_iff.mp h
    obtain ⟨⟨params', r'⟩, hparams', h'⟩ := Option.bind_eq_some_iff.mp h'
    cases params with
    | none =>
      cases h
      obtain ⟨_, hns, _⟩ := names_sound hparams (hq.quiet _)
      cases hns
    | some params =>
      obtain ⟨hrparen, h⟩ := hq.expect h
      cases h
      obtain ⟨hended, hsome⟩ := names_inStep hb hp.inStep hlisted hparams hq hparams'
      cases params' with
      | none => cases hsome
      | some params' =>
        simp only [hended.expect hrparen rfl] at h'
        cases h'
        exact ⟨hended.advance hb hrparen rfl, rfl⟩

/-! ## All productions -/

namespace AllInStep

variable {k : Nat} {p p' q q' : Cursor}

/-- The loop around a lagging expression reads what that has left. -/
theorem catchUp (ih : AllInStep b s k) {n : Nat} {min hi : Precedence}
    {left left' x x' : Option (Expr Unit)} {r : Cursor} (hlags : Lags b s hi r p p')
    (hle : min.rank ≤ hi.rank) (h : Production.operators n min left p = some (x, q))
    (hq : q.Clean) (h' : Production.operators k min left' p' = some (x', q')) : b.Ended s q q' := by
  obtain ⟨hended, m, left₁, y, hy⟩ := hlags
  obtain ⟨j, z, hz⟩ := operators_resume hy hle h left
  exact ih.operators hended hz hq h'

/-- An expression that may start on the spot only if no operator comes after that. -/
theorem lowest (ih : AllInStep b s k) {n : Nat} {x x' : Option (Expr Unit)} (hp : b.Ready s p p')
    (h : Production.expression n .lowest p = some (x, q)) (hq : q.Clean)
    (h' : Production.expression k .lowest p' = some (x', q')) : b.Ended s q q' := by
  rcases ih.expression hp.inStep (by decide) h hq h' with hended | ⟨hat, hended, m, left, y, hy⟩
  · exact hended
  · have hfollow : p.peek.kind.follow? = none := by
      rw [peek_kind, hat, List.tail_cons]
      exact hp.isOpen hat
    rw [operators_of_follow hfollow hy]
    exact hended

theorem expression_succ (ih : AllInStep b s k) {n : Nat} {min : Precedence}
    {x x' : Option (Expr Unit)} (hp : b.InStep s p p') (hmin : min.rank ≤ Precedence.unary.rank)
    (h : Production.expression n min p = some (x, q)) (hq : q.Clean)
    (h' : Production.expression (k + 1) min p' = some (x', q')) :
    b.Ended s q q' ∨ b.At p ∧ Lags b s min p q q' := by
  cases n with
  | zero => cases h
  | succ n =>
    rw [Production.expression] at h h'
    cases hlead : p.current.kind.lead? with
    | none =>
      rw [hlead] at h
      cases h
      exact absurd hq (not_clean_record _ _)
    | some lead =>
      rw [hlead] at h
      obtain ⟨⟨left, r⟩, hleft, h⟩ := Option.bind_eq_some_iff.mp h
      have hr := ((Production.moves n).operators _ _ _ _ _ h).clean hq
      by_cases hat : b.At p
      · right
        have hkind : p.current.kind.isOperand = true := by
          rw [current_of_tokens hat, b.isOperand]
        cases operand_of_isOperand hlead hkind hleft hr
        rw [hp.kind_of_at hat] at h'
        cases h'
        exact ⟨hat, hp.ended_of_at hat, n, left, x, h⟩
      · left
        rw [hp.current_kind hat, hlead] at h'
        obtain ⟨⟨left', r'⟩, hleft', h'⟩ := Option.bind_eq_some_iff.mp h'
        rcases ih.operand hp hat hlead hleft hr hleft' with hended | ⟨u, hlags⟩
        · exact ih.operators hended h hq h'
        · exact ih.catchUp hlags hmin h hq h'

theorem operand_succ (ih : AllInStep b s k) (hb : b.Shielded) {n : Nat} {lead : Lead}
    {x x' : Option (Expr Unit)} (hp : b.InStep s p p') (hat : ¬ b.At p)
    (hlead : p.current.kind.lead? = some lead)
    (h : Production.operand n lead p = some (x, q)) (hq : q.Clean)
    (h' : Production.operand (k + 1) lead p' = some (x', q')) :
    b.Ended s q q' ∨ ∃ r, Lags b s .unary r q q' := by
  have hkind := kind_of_lead? hlead
  cases n with
  | zero => cases h
  | succ n =>
    cases lead <;> rw [Production.operand] at h h'
    case name =>
      cases h
      cases h'
      exact Or.inl (hp.ready hb hat (by rw [hkind]; rfl))
    case integer =>
      have hliteral : p'.current.literal = p.current.literal :=
        congrArg Prod.snd (hp.current_word hat)
      rw [hliteral] at h'
      cases hread : readInteger? p.current.literal with
      | some i =>
        rw [hread] at h h'
        cases h
        cases h'
        exact Or.inl (hp.ready hb hat (by rw [hkind]; rfl))
      | none =>
        rw [hread] at h
        cases h
        exact absurd hq (not_clean_record _ _)
    case text =>
      cases h
      cases h'
      exact Or.inl (hp.ready hb hat (by rw [hkind]; rfl))
    case truth c =>
      cases h
      cases h'
      exact Or.inl (hp.ready hb hat (by rw [hkind]; cases c <;> rfl))
    case unary op =>
      obtain ⟨⟨y, r⟩, hy, h⟩ := Option.bind_eq_some_iff.mp h
      obtain ⟨⟨y', r'⟩, hy', h'⟩ := Option.bind_eq_some_iff.mp h'
      cases h
      cases h'
      rcases ih.expression (hp.advance hat) (Nat.le_refl _) hy hq hy' with hended | ⟨_, hlags⟩
      · exact Or.inl hended
      · exact Or.inr ⟨_, hlags⟩
    case group =>
      obtain ⟨⟨y, r⟩, hy, h⟩ := Option.bind_eq_some_iff.mp h
      obtain ⟨⟨y', r'⟩, hy', h'⟩ := Option.bind_eq_some_iff.mp h'
      obtain ⟨hclose, h⟩ := hq.expect h
      cases h
      have hended := ih.lowest (hp.ended hb hkind rfl) hy hq hy'
      simp only [hended.expect hclose rfl] at h'
      cases h'
      exact Or.inl (hended.advance hb hclose rfl)
    case array =>
      obtain ⟨⟨y, r⟩, hy, h⟩ := Option.bind_eq_some_iff.mp h
      obtain ⟨⟨y', r'⟩, hy', h'⟩ := Option.bind_eq_some_iff.mp h'
      cases h
      cases h'
      exact Or.inl (ih.elements (hp.ended hb hkind rfl) rfl hy hq hy')
    case hash =>
      obtain ⟨⟨y, r⟩, hy, h⟩ := Option.bind_eq_some_iff.mp h
      obtain ⟨⟨y', r'⟩, hy', h'⟩ := Option.bind_eq_some_iff.mp h'
      cases h
      cases h'
      exact Or.inl (ih.pairs (hp.ended hb hkind rfl) hy hq hy')
    case conditional => exact Or.inl (ih.conditional (hp.ended hb hkind rfl) h hq h')
    case function => exact Or.inl (ih.function hp hkind h hq h')

theorem operators_succ (ih : AllInStep b s k) {n : Nat} {min : Precedence}
    {left left' x x' : Option (Expr Unit)} (hp : b.Ended s p p')
    (h : Production.operators n min left p = some (x, q)) (hq : q.Clean)
    (h' : Production.operators (k + 1) min left' p' = some (x', q')) : b.Ended s q q' := by
  cases n with
  | zero => cases h
  | succ n =>
    rw [Production.operators] at h h'
    rw [hp.sameKind.precedence_eq, hp.sameKind.follow?_eq] at h'
    split at h
    · next hmin =>
      rw [if_pos hmin] at h'
      cases hfollow : p.peek.kind.follow? with
      | none =>
        rw [hfollow] at h h'
        cases h
        cases h'
        exact hp
      | some follow =>
        rw [hfollow] at h h'
        obtain ⟨⟨y, r⟩, hy, h⟩ := Option.bind_eq_some_iff.mp h
        obtain ⟨⟨y', r'⟩, hy', h'⟩ := Option.bind_eq_some_iff.mp h'
        have hr := ((Production.moves n).operators _ _ _ _ _ h).clean hq
        rcases ih.extend hp.inStep hfollow hy hr hy' with hended | ⟨u, hlags⟩
        · exact ih.operators hended h hq h'
        · exact ih.catchUp hlags (Nat.le_of_lt hmin) h hq h'
    · next hmin =>
      rw [if_neg hmin] at h'
      cases h
      cases h'
      exact hp

theorem extend_succ (ih : AllInStep b s k) (hb : b.Shielded) {n : Nat} {follow : Follow}
    {left left' x x' : Option (Expr Unit)} (hp : b.InStep s p p')
    (hfollow : p.current.kind.follow? = some follow)
    (h : Production.extend n follow left p = some (x, q)) (hq : q.Clean)
    (h' : Production.extend (k + 1) follow left' p' = some (x', q')) :
    b.Ended s q q' ∨ ∃ r, Lags b s p.current.kind.precedence r q q' := by
  have hat : ¬ b.At p := by
    refine Spot.not_at_of_kind ?_
    revert hfollow
    cases p.current.kind <;> simp [TokenKind.follow?, TokenKind.isOperand]
  cases n with
  | zero => cases h
  | succ n =>
    cases follow <;> rw [Production.extend] at h h'
    case operation op =>
      rw [hp.current_kind hat] at h'
      obtain ⟨⟨y, r⟩, hy, h⟩ := Option.bind_eq_some_iff.mp h
      obtain ⟨⟨y', r'⟩, hy', h'⟩ := Option.bind_eq_some_iff.mp h'
      cases h
      cases h'
      have hle : p.current.kind.precedence.rank ≤ Precedence.unary.rank := by
        revert hfollow
        cases p.current.kind <;> simp [TokenKind.follow?, TokenKind.precedence, Precedence.rank]
      rcases ih.expression (hp.advance hat) hle hy hq hy' with hended | ⟨_, hlags⟩
      · exact Or.inl hended
      · exact Or.inr ⟨_, hlags⟩
    case call =>
      obtain ⟨⟨y, r⟩, hy, h⟩ := Option.bind_eq_some_iff.mp h
      obtain ⟨⟨y', r'⟩, hy', h'⟩ := Option.bind_eq_some_iff.mp h'
      cases h
      cases h'
      have hkind := kind_of_follow_call hfollow
      exact Or.inl (ih.elements (hp.ended hb hkind rfl) rfl hy hq hy')
    case index =>
      obtain ⟨⟨y, r⟩, hy, h⟩ := Option.bind_eq_some_iff.mp h
      obtain ⟨⟨y', r'⟩, hy', h'⟩ := Option.bind_eq_some_iff.mp h'
      obtain ⟨hclose, h⟩ := hq.expect h
      cases h
      have hkind := kind_of_follow_index hfollow
      have hended := ih.lowest (hp.ended hb hkind rfl) hy hq hy'
      simp only [hended.expect hclose rfl] at h'
      cases h'
      exact Or.inl (hended.advance hb hclose rfl)

theorem elements_succ (ih : AllInStep b s k) (hb : b.Shielded) {n : Nat} {close : TokenKind}
    {x x' : Option (List (Expr Unit))} (hp : b.Ended s p p') (hframe : close.isFrame = true)
    (h : Production.elements n close p = some (x, q)) (hq : q.Clean)
    (h' : Production.elements (k + 1) close p' = some (x', q')) : b.Ended s q q' := by
  cases n with
  | zero => cases h
  | succ n =>
    rw [Production.elements] at h h'
    split at h
    · next hclose =>
      rw [if_pos ((hp.peek_eq_iff hframe).mpr hclose)] at h'
      cases h
      cases h'
      exact hp.advance hb hclose hframe
    · next hclose =>
      rw [if_neg (mt (hp.peek_eq_iff hframe).mp hclose)] at h'
      obtain ⟨⟨y, r⟩, hy, h⟩ := Option.bind_eq_some_iff.mp h
      obtain ⟨⟨y', r'⟩, hy', h'⟩ := Option.bind_eq_some_iff.mp h'
      obtain ⟨⟨ys, u⟩, hys, h⟩ := Option.bind_eq_some_iff.mp h
      obtain ⟨⟨ys', u'⟩, hys', h'⟩ := Option.bind_eq_some_iff.mp h'
      obtain ⟨hclose, h⟩ := hq.expect h
      cases h
      have hr := ((Production.moves n).moreElements _ _ _ hys).clean hq
      have hended := ih.moreElements (ih.lowest hp hy hr hy') hys hq hys'
      simp only [hended.expect hclose hframe] at h'
      cases h'
      exact hended.advance hb hclose hframe

theorem moreElements_succ (ih : AllInStep b s k) (hb : b.Shielded) {n : Nat}
    {x x' : List (Option (Expr Unit))} (hp : b.Ended s p p')
    (h : Production.moreElements n p = some (x, q)) (hq : q.Clean)
    (h' : Production.moreElements (k + 1) p' = some (x', q')) : b.Ended s q q' := by
  cases n with
  | zero => cases h
  | succ n =>
    rw [Production.moreElements] at h h'
    split at h
    · next hcomma =>
      rw [if_pos ((hp.peek_eq_iff rfl).mpr hcomma)] at h'
      obtain ⟨⟨y, r⟩, hy, h⟩ := Option.bind_eq_some_iff.mp h
      obtain ⟨⟨y', r'⟩, hy', h'⟩ := Option.bind_eq_some_iff.mp h'
      obtain ⟨⟨ys, u⟩, hys, h⟩ := Option.bind_eq_some_iff.mp h
      obtain ⟨⟨ys', u'⟩, hys', h'⟩ := Option.bind_eq_some_iff.mp h'
      cases h
      cases h'
      have hr := ((Production.moves n).moreElements _ _ _ hys).clean hq
      exact ih.moreElements (ih.lowest (hp.advance hb hcomma rfl) hy hr hy') hys hq hys'
    · next hcomma =>
      rw [if_neg (mt (hp.peek_eq_iff rfl).mp hcomma)] at h'
      cases h
      cases h'
      exact hp

theorem pairs_succ (ih : AllInStep b s k) (hb : b.Shielded) {n : Nat}
    {x x' : Option (List (Option (Expr Unit × Expr Unit)))} (hp : b.Ended s p p')
    (h : Production.pairs n p = some (x, q)) (hq : q.Clean)
    (h' : Production.pairs (k + 1) p' = some (x', q')) : b.Ended s q q' := by
  cases n with
  | zero => cases h
  | succ n =>
    rw [Production.pairs] at h'
    by_cases hclose : p.peek.kind = .rbrace
    · rw [Production.pairs, if_pos hclose] at h
      rw [if_pos ((hp.peek_eq_iff rfl).mpr hclose)] at h'
      cases h
      cases h'
      exact hp.advance hb hclose rfl
    · rw [if_neg (mt (hp.peek_eq_iff rfl).mp hclose)] at h'
      obtain ⟨key, r, value, u, hkey, hr, hcolon, hvalue, hu, hend⟩ := pairs_of_clean h hq hclose
      obtain ⟨⟨key', r'⟩, hkey', h'⟩ := Option.bind_eq_some_iff.mp h'
      have hended := ih.lowest hp hkey hr hkey'
      simp only [hended.expect hcolon rfl] at h'
      obtain ⟨⟨value', u'⟩, hvalue', h'⟩ := Option.bind_eq_some_iff.mp h'
      have hended := ih.lowest (hended.advance hb hcolon rfl) hvalue hu hvalue'
      rcases hend with ⟨hend, rfl⟩ | ⟨hend, hcomma, rest, hrest⟩
      · simp only [if_pos ((hended.peek_eq_iff rfl).mpr hend)] at h'
        cases h'
        exact hended.advance hb hend rfl
      · simp only [if_neg (mt (hended.peek_eq_iff rfl).mp hend), hended.expect hcomma rfl] at h'
        obtain ⟨⟨rest', v'⟩, hrest', h'⟩ := Option.bind_eq_some_iff.mp h'
        cases h'
        exact ih.pairs (hended.advance hb hcomma rfl) hrest hq hrest'

/-- The statements of a block and the brace that closes it, or the end. -/
theorem block (ih : AllInStep b s k) (hb : b.Shielded) {n : Nat} {x x' : List (Stmt Unit)}
    (hp : b.Ready s p p') (h : Production.statements n true p = some (x, q)) (hq : q.Clean)
    (h' : Production.statements k true p' = some (x', q')) : b.Ended s q q' := by
  have hinStep := ih.statements hp h hq h'
  rcases statements_end h with hend | ⟨_, hend⟩
  · exact hinStep.ended hb hend rfl
  · exact hinStep.ended hb hend rfl

theorem conditional_succ (ih : AllInStep b s k) (hb : b.Shielded) {n : Nat}
    {x x' : Option (Expr Unit)} (hp : b.Ended s p p')
    (h : Production.conditional n p = some (x, q)) (hq : q.Clean)
    (h' : Production.conditional (k + 1) p' = some (x', q')) : b.Ended s q q' := by
  cases n with
  | zero => cases h
  | succ n =>
    obtain ⟨test, r, yes, u, htest, hr, hopen, hyes, hu, hend⟩ := conditional_of_clean h hq
    rw [Production.conditional] at h'
    obtain ⟨⟨test', r'⟩, htest', h'⟩ := Option.bind_eq_some_iff.mp h'
    have hended := ih.lowest hp htest hr htest'
    simp only [hended.expect hopen rfl] at h'
    obtain ⟨⟨yes', u'⟩, hyes', h'⟩ := Option.bind_eq_some_iff.mp h'
    have hended := ih.block hb (hended.advance hb hopen rfl) hyes hu hyes'
    rcases hend with ⟨helse, rfl⟩ | ⟨helse, hopen', no, hno⟩
    · simp only [if_neg (mt (hended.peek_eq_iff rfl).mp helse)] at h'
      cases h'
      exact hended
    · have hended' := hended.advance hb helse rfl
      simp only [if_pos ((hended.peek_eq_iff rfl).mpr helse), hended'.expect hopen' rfl] at h'
      obtain ⟨⟨no', v'⟩, hno', h'⟩ := Option.bind_eq_some_iff.mp h'
      cases h'
      exact ih.block hb (hended'.advance hb hopen' rfl) hno hq hno'

theorem function_succ (ih : AllInStep b s k) (hb : b.Shielded) {n : Nat}
    {x x' : Option (Expr Unit)} (hp : b.InStep s p p') (hfn : p.current.kind = .fnWord)
    (h : Production.function n p = some (x, q)) (hq : q.Clean)
    (h' : Production.function (k + 1) p' = some (x', q')) : b.Ended s q q' := by
  cases n with
  | zero => cases h
  | succ n =>
    obtain ⟨hopen, params, r, body, hparams, hr, hbrace, hbody⟩ := function_of_clean h hq
    rw [Production.function] at h'
    have hended := hp.ended hb hfn rfl
    simp only [hended.expect hopen rfl] at h'
    obtain ⟨⟨params', r'⟩, hparams', h'⟩ := Option.bind_eq_some_iff.mp h'
    have hlisted : Listed b p.advance.advance := by
      intro done hdone
      obtain ⟨done₁, hkinds₁, h₁⟩ := hdone.back_kind hended.inStep hopen (by decide)
      obtain ⟨done₂, hkinds₂, -⟩ := h₁.back_kind hp hfn (by decide)
      rw [hkinds₁, hkinds₂, inParameters]
    obtain ⟨hended, hsome⟩ :=
      parameters_inStep hb (hended.advance hb hopen rfl) hlisted hparams hr hparams'
    cases params' with
    | none => cases hsome
    | some params' =>
      simp only [hended.expect hbrace rfl] at h'
      obtain ⟨⟨body', u'⟩, hbody', h'⟩ := Option.bind_eq_some_iff.mp h'
      cases h'
      exact ih.block hb (hended.advance hb hbrace rfl) hbody hq hbody'

theorem statements_succ (ih : AllInStep b s k) {n : Nat} {inBlock : Bool}
    {x x' : List (Stmt Unit)} (hp : b.Ready s p p')
    (h : Production.statements n inBlock p = some (x, q)) (hq : q.Clean)
    (h' : Production.statements (k + 1) inBlock p' = some (x', q')) : b.InStep s q q' := by
  cases n with
  | zero => cases h
  | succ n =>
    have hstop := hp.inStep.sameKind.stop_iff inBlock
    rw [Production.statements] at h h'
    split at h
    · next hend =>
      rw [if_pos (hstop.mpr hend)] at h'
      cases h
      cases h'
      exact hp.inStep
    · next hend =>
      rw [if_neg (mt hstop.mp hend)] at h'
      obtain ⟨⟨y, r⟩, hy, h⟩ := Option.bind_eq_some_iff.mp h
      obtain ⟨⟨ys, u⟩, hys, h⟩ := Option.bind_eq_some_iff.mp h
      obtain ⟨⟨y', r'⟩, hy', h'⟩ := Option.bind_eq_some_iff.mp h'
      obtain ⟨⟨ys', u'⟩, hys', h'⟩ := Option.bind_eq_some_iff.mp h'
      cases h
      cases h'
      have hr : r.Clean := ((Production.moves n).statements _ _ _ _ hys).clean hq
      exact ih.statements (ih.statement hp hy hr hy') hys hq hys'

/-- The expression at the end of a statement. -/
theorem terminated (ih : AllInStep b s k) (hb : b.Shielded) {n : Nat} {x x' : Option (Expr Unit)}
    (hp : b.Ready s p p') (h : Production.expression n .lowest p = some (x, q))
    (hq : q.skipTerminator.Clean) (h' : Production.expression k .lowest p' = some (x', q')) :
    b.Ended s q.skipTerminator q'.skipTerminator :=
  (ih.lowest hp h ((Moves.refl q).skipTerminator.clean hq) h').skipTerminator hb

theorem statement_succ (ih : AllInStep b s k) (hb : b.Shielded) {n : Nat}
    {x x' : Option (Stmt Unit)} (hp : b.Ready s p p')
    (h : Production.statement n p = some (x, q)) (hq : q.Clean)
    (h' : Production.statement (k + 1) p' = some (x', q')) : b.Ended s q q' := by
  cases n with
  | zero => cases h
  | succ n =>
    have hkinds := hp.inStep.sameKind
    by_cases hlet : p.current.kind = .letWord
    · rw [Production.statement, hlet] at h
      rw [Production.statement, (hkinds.eq_iff rfl).mpr hlet] at h'
      obtain ⟨hident, h⟩ := hq.expect h
      obtain ⟨hassign, h⟩ := hq.expect h
      obtain ⟨⟨y, r⟩, hy, h⟩ := Option.bind_eq_some_iff.mp h
      cases h
      -- the spot is not the name, since that is bound
      have hat : ¬ b.At p.advance := by
        intro hat
        obtain ⟨done, hdone, -⟩ := hat.ahead.back_kind hp.inStep hlet (by decide)
        have hunbound := b.unbound
        rw [hdone] at hunbound
        cases hunbound
      have hname := (hp.inStep.ended hb hlet rfl).inStep
      have hident' : p'.peek.kind = .ident := (hname.current_kind hat).trans hident
      have hended : b.Ended s p.advance p'.advance :=
        hname.ready hb hat (congrArg TokenKind.isOperator hident)
      simp only [expect_of_peek hident', hended.expect hassign rfl] at h'
      obtain ⟨⟨y', r'⟩, hy', h'⟩ := Option.bind_eq_some_iff.mp h'
      cases h'
      exact ih.terminated hb (hended.advance hb hassign rfl) hy hq hy'
    by_cases hreturn : p.current.kind = .returnWord
    · rw [Production.statement, hreturn] at h
      rw [Production.statement, (hkinds.eq_iff rfl).mpr hreturn] at h'
      obtain ⟨⟨y, r⟩, hy, h⟩ := Option.bind_eq_some_iff.mp h
      obtain ⟨⟨y', r'⟩, hy', h'⟩ := Option.bind_eq_some_iff.mp h'
      cases h
      cases h'
      exact ih.terminated hb (hp.inStep.ended hb hreturn rfl) hy hq hy'
    · rw [statement_alone hlet hreturn] at h
      rw [statement_alone (mt (hkinds.eq_iff rfl).mp hlet) (mt (hkinds.eq_iff rfl).mp hreturn)] at h'
      obtain ⟨⟨y, r⟩, hy, h⟩ := Option.bind_eq_some_iff.mp h
      obtain ⟨⟨y', r'⟩, hy', h'⟩ := Option.bind_eq_some_iff.mp h'
      cases h
      cases h'
      exact ih.terminated hb hp hy hq hy'

end AllInStep

/-- **Productions read a source and its blotted form in step.** -/
theorem inStep (hb : b.Shielded) (k : Nat) : AllInStep b s k := by
  induction k with
  | zero => constructor <;> intros <;> rename_i h' <;> cases h'
  | succ k ih =>
    exact {
      expression := ih.expression_succ
      operand := ih.operand_succ hb
      operators := ih.operators_succ
      extend := ih.extend_succ hb
      elements := ih.elements_succ hb
      moreElements := ih.moreElements_succ hb
      pairs := ih.pairs_succ hb
      conditional := ih.conditional_succ hb
      function := ih.function_succ hb
      statements := ih.statements_succ
      statement := ih.statement_succ hb }

end Production

/-! ## Whole sources -/

theorem Spot.ready_ofSource {source : String} {b : Spot} (hb : b.Shielded)
    (htokens : (tokenize source).dropLast = b.tokens) {c : Char} (hc : isIllegal c = true) :
    b.Ready (String.ofList [c]) (Cursor.ofSource source)
      (Cursor.ofSource (blot source b.token c)) := by
  rw [dropLast_tokenize] at htokens
  refine ⟨@InStep.ahead _ _ _ _ [] _ rfl htokens (words_blot htokens hc) rfl, fun hat => ?_⟩
  rcases hb with ⟨t, ht, -⟩ | hfollow
  · rw [hat.nil htokens] at ht
    cases ht
  · exact hfollow

/-- **The blot on a shielded operand is all that is reported.** -/
theorem Spot.Shielded.diagnostics_blot {source : String} {b : Spot} (hb : b.Shielded)
    (hclean : (parse source).diagnostics = []) (htokens : (tokenize source).dropLast = b.tokens)
    {c : Char} (hc : isIllegal c = true) :
    (parse (blot source b.token c)).diagnostics = [.noOperand .illegal] := by
  have hend := (Production.inStep hb _).statements (Spot.ready_ofSource hb htokens hc)
    (Cursor.program_eq _) ((Cursor.clean_iff _).mpr hclean) (Cursor.program_eq _)
  -- the source is read to its end, so the spot is behind
  cases hend with
  | ahead _ hleft =>
    rw [Cursor.tokens_program] at hleft
    simp at hleft
  | behind _ _ hreported => exact hreported

end ClosureLang
