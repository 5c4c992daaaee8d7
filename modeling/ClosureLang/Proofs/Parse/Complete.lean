import ClosureLang.Proofs.Parse.Sound

/-!
# What is in the grammar is read without a report

A production reads what the grammar derives, gives the tree of the derivation and adds no report
(`Grammar.Program.read`). The results are about bounded productions that have a result, so nothing
here counts calls.

An expression of level `l` is followed by something that its level does not go on with (`Stops`).
It is not read in one piece: the operators after it that a looser level takes are read by the same
loop. So the statement about expressions, `ReadsExpression`, is that reading one comes down to
reading the operators after it, with its tree as the operand so far.
-/

namespace ClosureLang

open Cursor

namespace Cursor

/-- `q` is where the cursor stands when all between `p` and `rest` has been read without a
report. -/
structure Reads (p : Cursor) (rest : List Token) (q : Cursor) : Prop where
  tokens : q.tokens.tail = rest
  reports : q.reports = p.reports

theorem Reads.firstKind_eq {p q : Cursor} {rest : List Token} (h : p.Reads rest q) :
    q.peek.kind = Grammar.firstKind rest := by
  rw [peek_kind, h.tokens]

/-- The next token is read. -/
theorem Reads.advance {p q : Cursor} {t : Token} {rest : List Token} (h : p.Reads (t :: rest) q) :
    p.Reads rest q.advance :=
  ⟨by rw [tokens_advance, h.tokens, List.tail_cons], h.reports⟩

/-- A wanted token that comes next is read. -/
theorem Reads.expect {p q : Cursor} {t : Token} {rest : List Token} {k : TokenKind}
    (h : p.Reads (t :: rest) q) (ht : t.kind = k) : q.expect k = (true, q.advance) := by
  rcases q.expect_cases k with ⟨_, he⟩ | ⟨hne, _⟩
  · exact he
  · exact absurd (h.firstKind_eq.trans ht) hne

end Cursor

namespace Grammar

open Production

/-- If a bounded production that starts at `p` has a result, it gives `a` and leaves `rest`, without
a report. -/
def Gives {α : Type} (p : Cursor) (m : Option (α × Cursor)) (a : α) (rest : List Token) : Prop :=
  ∀ r, m = some r → ∃ q, r = (a, q) ∧ p.Reads rest q

theorem Gives.of_some {α : Type} {p q : Cursor} {a : α} {rest : List Token} (h : p.Reads rest q) :
    Gives p (some (a, q)) a rest := by
  intro r hr
  cases hr
  exact ⟨q, rfl, h⟩

theorem Gives.of_none {α : Type} {p : Cursor} {a : α} {rest : List Token} :
    Gives p none a rest := by
  intro r hr
  cases hr

/-- Productions in a row: if the first gives its result and the second, from what it leaves, gives
its own, so do both together. -/
theorem Gives.bind {α β : Type} {p p' : Cursor} {m : Option (α × Cursor)}
    {f : α × Cursor → Option (β × Cursor)} {a : α} {b : β} {us rest : List Token}
    (h : Gives p' m a us) (hp : p'.reports = p.reports)
    (hf : ∀ q, p.Reads us q → Gives p (f (a, q)) b rest) : Gives p (m >>= f) b rest := by
  intro r hr
  obtain ⟨s, hm, hr⟩ := Option.bind_eq_some_iff.mp hr
  obtain ⟨q, rfl, hq⟩ := h s hm
  exact hf q ⟨hq.tokens, hq.reports.trans hp⟩ r hr

/-! ## What follows -/

/-- What follows does not go on with an expression of level `l`. No expression goes on with an
`else`, other than after the block of a conditional. -/
structure Stops (l : Precedence) (rest : List Token) : Prop where
  bounded : Bounded l rest
  noElse : firstKind rest ≠ .elseWord

/-- What stops a level stops every tighter one. -/
theorem Stops.loosen {l m : Precedence} {rest : List Token} (h : Stops l rest)
    (hlm : l.rank ≤ m.rank) : Stops m rest :=
  ⟨Nat.le_trans h.bounded hlm, h.noElse⟩

/-- The kinds that stop any expression. -/
def stopKinds : List TokenKind :=
  [.eof, .comma, .colon, .semicolon, .rparen, .lbrace, .rbrace, .rbracket]

theorem Stops.of_mem {l : Precedence} {rest : List Token} (h : firstKind rest ∈ stopKinds) :
    Stops l rest := by
  have hk : (firstKind rest).precedence.rank = 0 ∧ firstKind rest ≠ .elseWord := by
    revert h
    cases firstKind rest <;> decide
  exact ⟨by unfold Bounded; omega, hk.2⟩

theorem Stops.of_kind {l : Precedence} {t : Token} {rest : List Token} {k : TokenKind}
    (ht : t.kind = k) (hk : k ∈ stopKinds) : Stops l (t :: rest) :=
  .of_mem (by rw [firstKind_cons, ht]; exact hk)

/-- What starts a statement. -/
def Starts (k : TokenKind) : Prop := k.lead?.isSome ∨ k = .letWord ∨ k = .returnWord

/-- What starts a statement and cannot go on with an expression stops one. -/
theorem Starts.stops {l : Precedence} {us : List Token} (h : Starts (firstKind us))
    (hne : firstKind us ∉ ambiguous) : Stops l us := by
  have hk : (firstKind us).precedence.rank = 0 ∧ firstKind us ≠ .elseWord := by
    revert h hne
    unfold Starts
    cases firstKind us <;> decide
  exact ⟨by unfold Bounded; omega, hk.2⟩

/-! ## How constructs start -/

/-- The token of a unary operator leads to that operator. -/
theorem lead_of_unary {k : TokenKind} {op : UnaryOp} (h : (k, op) ∈ unaryOperators) :
    k.lead? = some (.unary op) := by
  simp only [unaryOperators, List.mem_cons, Prod.mk.injEq, List.not_mem_nil, or_false] at h
  rcases h with ⟨rfl, rfl⟩ | ⟨rfl, rfl⟩ <;> rfl

theorem Primary.lead {ts : List Token} {x : Expr Unit} {rest : List Token}
    (h : Primary ts x rest) : (firstKind ts).lead?.isSome := by
  cases h <;> simp only [firstKind_cons] <;> simp_all [TokenKind.lead?]

/-- An expression starts with a token that leads to an operand. -/
theorem Expression.lead {l : Precedence} {ts : List Token} {x : Expr Unit} {rest : List Token} :
    Expression l ts x rest → (firstKind ts).lead?.isSome
  | .tighter _ h => h.lead
  | .binary _ _ h _ => h.lead
  | .unary hop _ => by rw [firstKind_cons, lead_of_unary hop]; rfl
  | .call h _ _ => h.lead
  | .index h _ _ _ => h.lead
  | .primary h => h.lead

theorem Expressions.lead {ts : List Token} {xs : List (Expr Unit)} {rest : List Token}
    (h : Expressions ts xs rest) : (firstKind ts).lead?.isSome := by
  cases h with
  | one hx => exact hx.lead
  | more hx _ _ => exact hx.lead

/-- A statement starts with `let`, `return` or the first token of an expression. -/
theorem Statement.starts {ts : List Token} {s : Stmt Unit} {rest : List Token}
    (h : Statement ts s rest) : Starts (firstKind ts) := by
  cases h with
  | bind ht _ _ _ => exact Or.inr (Or.inl ht)
  | ret ht _ => exact Or.inr (Or.inr ht)
  | expr hx => exact Or.inl hx.lead

/-- Statements are none, and then nothing is read, or they start as a statement does. -/
theorem Statements.starts {ts : List Token} {b : List (Stmt Unit)} {rest : List Token}
    (h : Statements ts b rest) : b = [] ∧ ts = rest ∨ b ≠ [] ∧ Starts (firstKind ts) := by
  cases h with
  | nil => exact Or.inl ⟨rfl, rfl⟩
  | ended hs _ _ => exact Or.inr ⟨by simp, hs.starts⟩
  | unended hs _ _ => exact Or.inr ⟨by simp, hs.starts⟩

theorem Braced.firstKind_eq {ts : List Token} {b : List (Stmt Unit)} {rest : List Token}
    (h : Braced ts b rest) : firstKind ts = .lbrace := by
  cases h with
  | closed ht _ _ => exact ht
  | unclosed ht _ => exact ht

/-! ## Parameters -/

/-- Names between commas are read in their order. -/
theorem Names.read {ts : List Token} {ns : List String} {rest : List Token}
    (h : Names ts ns rest) : ∀ {n : Nat} {p : Cursor}, p.tokens = ts → firstKind rest ≠ .comma →
      Gives p (names n p) (some ns) rest := by
  induction h with
  | @one t rest ht =>
    intro n p hts hrest
    cases n with
    | zero => exact Gives.of_none
    | succ n =>
      rw [names, current_of_tokens hts, if_pos ht, peek_kind, hts, List.tail_cons, if_neg hrest]
      exact Gives.of_some ⟨by rw [hts, List.tail_cons], rfl⟩
  | @more t c ts ns rest ht hc _ ih =>
    intro n p hts hrest
    cases n with
    | zero => exact Gives.of_none
    | succ n =>
      rw [names, current_of_tokens hts, if_pos ht, peek_kind, hts, List.tail_cons, firstKind_cons,
        if_pos hc]
      refine Gives.bind (ih (by simp [hts]) hrest) rfl ?_
      exact fun q hq => Gives.of_some hq

/-- Parameters are read up to their closing parenthesis, which has to be there. -/
theorem Parameters.read {ts : List Token} {ns : List String} {rest : List Token}
    (h : Parameters ts ns rest) {n : Nat} {p : Cursor} (hts : p.tokens.tail = ts) :
    Gives p (parameters n p) (some ns) rest := by
  rw [parameters, peek_kind, hts]
  cases h with
  | empty ht =>
    rw [firstKind_cons, if_pos ht]
    exact Gives.of_some ⟨by rw [tokens_advance, hts, List.tail_cons], rfl⟩
  | @filled t _ _ _ hns ht =>
    have hfirst : firstKind ts = .ident := by cases hns <;> assumption
    rw [hfirst, if_neg (by decide)]
    refine Gives.bind (hns.read (p := p.advance) hts (by rw [firstKind_cons, ht]; decide)) rfl ?_
    intro q hq
    dsimp only
    rw [hq.expect ht]
    exact Gives.of_some hq.advance

/-! ## Operators -/

/-- Operators that bind no tighter than `min` are not read. -/
theorem operators_of_bounded {n : Nat} {min : Precedence} {left : Option (Expr Unit)} {p : Cursor}
    {r : Option (Expr Unit) × Cursor} (h : operators n min left p = some r)
    (hb : Bounded min p.tokens.tail) : r = (left, p) := by
  cases n with
  | zero => cases h
  | succ n =>
    unfold Bounded at hb
    rw [← peek_kind] at hb
    have hle : ¬ min < p.peek.kind.precedence := Nat.not_lt_of_le hb
    rw [operators, if_neg hle] at h
    cases h
    rfl

/-- An operator that binds tighter than `min` is read, and the loop goes on after it. -/
theorem operators_of_lt {n : Nat} {min : Precedence} {left : Option (Expr Unit)} {p : Cursor}
    {r : Option (Expr Unit) × Cursor} {follow : Follow} (h : operators n min left p = some r)
    (hlt : min < p.peek.kind.precedence) (hfollow : p.peek.kind.follow? = some follow) :
    ∃ m left' q, extend m follow left p.advance = some (left', q) ∧
      operators m min left' q = some r := by
  cases n with
  | zero => cases h
  | succ n =>
    rw [operators, if_pos hlt, hfollow] at h
    obtain ⟨⟨left', q⟩, h₁, h₂⟩ := Option.bind_eq_some_iff.mp h
    exact ⟨n, left', q, h₁, h₂⟩

/-- The token of a binary operator goes on with that operator, at the level of the operator. -/
theorem follow_of_binary {l : Precedence} {k : TokenKind} {op : BinaryOp}
    (h : (k, op) ∈ binaryOperators l) :
    k.follow? = some (.operation op) ∧ k.precedence = l ∧ l.rank < Precedence.unary.rank := by
  cases l <;>
    simp only [binaryOperators, List.mem_cons, Prod.mk.injEq, List.not_mem_nil, or_false] at h
  case equality => rcases h with ⟨rfl, rfl⟩ | ⟨rfl, rfl⟩ <;> decide
  case comparison => rcases h with ⟨rfl, rfl⟩ | ⟨rfl, rfl⟩ <;> decide
  case sum => rcases h with ⟨rfl, rfl⟩ | ⟨rfl, rfl⟩ <;> decide
  case product => rcases h with ⟨rfl, rfl⟩ | ⟨rfl, rfl⟩ | ⟨rfl, rfl⟩ <;> decide

/-- No operator or delimiter that can follow an operand is an `else`. -/
theorem ne_else_of_follow {k : TokenKind} {follow : Follow} (h : k.follow? = some follow) :
    k ≠ .elseWord := by
  rintro rfl
  cases h

/-! ## Expressions

Each of the following properties says that a symbol of the grammar is read, and the lemmas after
it say so of each rule, given that the parts are read. -/

/-- A minimum below a level lets it through. Unary operators are read with their own level as the
minimum. -/
def Admits (min l : Precedence) : Prop := min < l ∨ min = .unary ∧ l = .unary

/-- A minimum that lets a level through lets the next tighter one through. -/
theorem Admits.tighter {min l m : Precedence} (h : Admits min l) (hm : tighter? l = some m) :
    Admits min m := by
  have hrank := tighter?_rank hm
  refine Or.inl ?_
  show min.rank < m.rank
  rcases h with h | ⟨rfl, rfl⟩
  · have : min.rank < l.rank := h
    omega
  · omega

theorem Admits.lt {min l : Precedence} (h : Admits min l) (hl : l ≠ .unary) : min < l :=
  h.resolve_right fun hu => hl hu.2

/-- Reading an expression comes down to reading the operators after it. -/
def ReadsExpression (l : Precedence) (ts : List Token) (x : Expr Unit) (rest : List Token) : Prop :=
  ∀ ⦃n min p r⦄, p.tokens = ts → Admits min l → Stops l rest → expression n min p = some r →
    ∃ m q, p.Reads rest q ∧ operators m min (some x) q = some r

/-- An operand is read by the production that its first token selects. -/
def ReadsPrimary (ts : List Token) (x : Expr Unit) (rest : List Token) : Prop :=
  ∃ lead, (firstKind ts).lead? = some lead ∧ ∀ ⦃n p⦄, p.tokens = ts → firstKind rest ≠ .elseWord →
    Gives p (operand n lead p) (some x) rest

/-- The elements between two delimiters are read up to the closing one. -/
def ReadsElements (close : TokenKind) (ts : List Token) (xs : List (Expr Unit))
    (rest : List Token) : Prop :=
  ∀ ⦃n p⦄, p.tokens.tail = ts → close = .rparen ∨ close = .rbracket →
    Gives p (elements n close p) (some xs) rest

namespace ReadsExpression

variable {l m : Precedence} {t u : Token} {ts us rest : List Token} {x y : Expr Unit}

/-- An expression that nothing goes on with is read as a whole. -/
theorem whole (hx : ReadsExpression l ts x rest) {n : Nat} {min : Precedence} {p : Cursor}
    (hts : p.tokens = ts) (hmin : Admits min l) (hl : Stops l rest) (hrest : Bounded min rest) :
    Gives p (expression n min p) (some x) rest := by
  intro r hr
  obtain ⟨m, q, hq, hops⟩ := hx hts hmin hl hr
  have hr := operators_of_bounded hops (by rw [hq.tokens]; exact hrest)
  exact ⟨q, hr, hq⟩

/-- An expression on its own is read before anything that stops it. -/
theorem alone (hx : ReadsExpression .equality ts x rest) {n : Nat} {p : Cursor}
    (hts : p.tokens = ts) (hrest : Stops .lowest rest) :
    Gives p (expression n .lowest p) (some x) rest :=
  hx.whole hts (Or.inl (by decide)) (hrest.loosen (by decide)) hrest.bounded

/-- An expression of a tighter level is read as one of the looser. -/
theorem tighter (hlm : tighter? l = some m) (hx : ReadsExpression m ts x rest) :
    ReadsExpression l ts x rest := by
  intro n min p r hts hmin hstop h
  have hrank := tighter?_rank hlm
  exact hx hts (hmin.tighter hlm) (hstop.loosen (by omega)) h

/-- The left operand is read first, then the loop finds the operator and reads the right operand
with the level of the operator as the minimum, which makes it left associative. -/
theorem binary {op : BinaryOp} (hlm : tighter? l = some m) (hop : (t.kind, op) ∈ binaryOperators l)
    (hx : ReadsExpression l ts x (t :: us)) (hy : ReadsExpression m us y rest) :
    ReadsExpression l ts (.binary op x y) rest := by
  intro n min p r hts hmin hstop h
  obtain ⟨hfollow, hprec, hl⟩ := follow_of_binary hop
  have hrank := tighter?_rank hlm
  have hstop' : Stops l (t :: us) := ⟨by simp [Bounded, hprec], ne_else_of_follow hfollow⟩
  -- The left operand, and then the operator, which is above the minimum.
  obtain ⟨n₁, p₁, hp₁, h₁⟩ := hx hts hmin hstop' h
  have hpeek : p₁.peek.kind = t.kind := hp₁.firstKind_eq
  have hlt : min < p₁.peek.kind.precedence := by
    rw [hpeek, hprec]
    exact hmin.lt (by rintro rfl; exact Nat.lt_irrefl _ hl)
  obtain ⟨n₂, left, p₂, h₂, h₃⟩ := operators_of_lt h₁ hlt (hpeek ▸ hfollow)
  -- The right operand stops where the whole expression does.
  cases n₂ with
  | zero => cases h₂
  | succ n₂ =>
    have hcur : p₁.advance.current.kind.precedence = l := by
      rw [current_kind, tokens_advance, hp₁.tokens, firstKind_cons, hprec]
    rw [extend, hcur] at h₂
    obtain ⟨⟨right, q⟩, h₄, h₅⟩ := Option.bind_eq_some_iff.mp h₂
    have hadmit : Admits l m := Or.inl (show l.rank < m.rank by omega)
    obtain ⟨q', hright, hq⟩ := hy.whole (by rw [tokens_advance, tokens_advance, hp₁.tokens,
      List.tail_cons]) hadmit (hstop.loosen (by omega)) hstop.bounded _ h₄
    cases hright
    cases h₅
    exact ⟨_, _, ⟨hq.tokens, hq.reports.trans hp₁.reports⟩, h₃⟩

/-- The operand of a unary operator is read with the level of unary operators as the minimum, so no
binary operator is read into it. -/
theorem unary {op : UnaryOp} (hop : (t.kind, op) ∈ unaryOperators)
    (hx : ReadsExpression .unary ts x rest) :
    ReadsExpression .unary (t :: ts) (.unary op x) rest := by
  intro n min p r hts hmin hstop h
  cases n with
  | zero => cases h
  | succ n =>
    rw [Production.expression, current_of_tokens hts, lead_of_unary hop] at h
    obtain ⟨⟨left, p₁⟩, h₁, h₂⟩ := Option.bind_eq_some_iff.mp h
    have hgives : Gives p (operand n (.unary op) p) (some (.unary op x)) rest := by
      cases n with
      | zero => exact Gives.of_none
      | succ n =>
        rw [operand]
        refine Gives.bind (hx.whole (by simp [hts]) (Or.inr ⟨rfl, rfl⟩) hstop hstop.bounded) rfl ?_
        exact fun q hq => Gives.of_some hq
    obtain ⟨q, hleft, hq⟩ := hgives _ h₁
    cases hleft
    exact ⟨_, _, hq, h₂⟩

/-- Something between delimiters after an expression of the tightest level. -/
theorem follow (follow : Follow) (hx : ReadsExpression .call ts x (t :: us))
    (hfollow : t.kind.follow? = some follow) (hprec : t.kind.precedence = .call)
    (hy : ∀ {n p}, p.tokens = t :: us → Gives p (extend n follow (some x) p) (some y) rest) :
    ReadsExpression .call ts y rest := by
  intro n min p r hts hmin hstop h
  have hstop' : Stops .call (t :: us) := ⟨bounded_call _, ne_else_of_follow hfollow⟩
  obtain ⟨n₁, p₁, hp₁, h₁⟩ := hx hts hmin hstop' h
  have hpeek : p₁.peek.kind = t.kind := hp₁.firstKind_eq
  have hlt : min < p₁.peek.kind.precedence := by
    rw [hpeek, hprec]
    exact hmin.lt (by decide)
  obtain ⟨n₂, left, p₂, h₂, h₃⟩ := operators_of_lt h₁ hlt (hpeek ▸ hfollow)
  obtain ⟨q, hleft, hq⟩ := hy (p := p₁.advance) hp₁.tokens _ h₂
  cases hleft
  exact ⟨_, _, ⟨hq.tokens, hq.reports.trans hp₁.reports⟩, h₃⟩

/-- A call goes on with whatever expression of the tightest level stands before it. -/
theorem call {xs : List (Expr Unit)} (hx : ReadsExpression .call ts x (t :: us))
    (ht : t.kind = .lparen) (hxs : ReadsElements .rparen us xs rest) :
    ReadsExpression .call ts (.call x xs) rest := by
  refine hx.follow .call (by rw [ht]; rfl) (by rw [ht]; rfl) ?_
  intro n p hts
  cases n with
  | zero => exact Gives.of_none
  | succ n =>
    rw [extend]
    refine Gives.bind (hxs (by rw [hts, List.tail_cons]) (Or.inl rfl)) rfl ?_
    exact fun q hq => Gives.of_some hq

theorem index (hx : ReadsExpression .call ts x (t :: us)) (ht : t.kind = .lbracket)
    (hy : ReadsExpression .equality us y (u :: rest)) (hu : u.kind = .rbracket) :
    ReadsExpression .call ts (.index x y) rest := by
  refine hx.follow .index (by rw [ht]; rfl) (by rw [ht]; rfl) ?_
  intro n p hts
  cases n with
  | zero => exact Gives.of_none
  | succ n =>
    rw [extend]
    refine Gives.bind (hy.alone (by rw [tokens_advance, hts, List.tail_cons])
      (.of_kind hu (by decide))) rfl ?_
    intro q hq
    dsimp only
    rw [hq.expect hu]
    exact Gives.of_some hq.advance

/-- A primary is an operand with nothing after it. -/
theorem primary (hx : ReadsPrimary ts x rest) : ReadsExpression .call ts x rest := by
  intro n min p r hts hmin hstop h
  obtain ⟨lead, hlead, hx⟩ := hx
  cases n with
  | zero => cases h
  | succ n =>
    rw [Production.expression, current_kind, hts, hlead] at h
    obtain ⟨⟨left, p₁⟩, h₁, h₂⟩ := Option.bind_eq_some_iff.mp h
    obtain ⟨q, hleft, hq⟩ := hx hts hstop.noElse _ h₁
    cases hleft
    exact ⟨_, _, hq, h₂⟩

end ReadsExpression

/-! ## Lists and pairs -/

/-- Expressions between commas are read as the first one and those that follow. -/
def ReadsExpressions (ts : List Token) (ys : List (Expr Unit)) (rest : List Token) : Prop :=
  ∃ x xs, ys = x :: xs ∧ ∀ m ⦃n p r q⦄, p.tokens = ts → Stops .lowest rest →
    firstKind rest ≠ .comma → expression n .lowest p = some (r, q) →
    r = some x ∧ Gives p (moreElements m q) (xs.map some) rest

/-- What closes a hash literal: its brace, perhaps after a comma. -/
def ClosesHash (ts rest : List Token) : Prop :=
  (∃ t, ts = t :: rest ∧ t.kind = .rbrace) ∨
    ∃ c t, ts = c :: t :: rest ∧ c.kind = .comma ∧ t.kind = .rbrace

/-- The pairs of a hash literal are read up to the closing brace. -/
def ReadsEntries (ts : List Token) (ps : List (Expr Unit × Expr Unit)) (rest : List Token) : Prop :=
  ∀ ⦃n p⦄, p.tokens.tail = ts → Gives p (pairs n p) (some (ps.map some)) rest

/-- Pairs between commas are read together with what closes the hash literal. -/
def ReadsPairs (ts : List Token) (ps : List (Expr Unit × Expr Unit)) (us : List Token) : Prop :=
  ∀ ⦃rest⦄, ClosesHash us rest → ReadsEntries ts ps rest

section Lists

variable {c d t : Token} {ts us vs rest : List Token} {x k v : Expr Unit} {xs : List (Expr Unit)}
  {ps : List (Expr Unit × Expr Unit)} {close : TokenKind}

theorem ReadsExpressions.one (hx : ReadsExpression .equality ts x rest) :
    ReadsExpressions ts [x] rest := by
  refine ⟨x, [], rfl, ?_⟩
  intro m n p r q hts hstop hcomma h
  obtain ⟨q', hr, hq⟩ := hx.alone hts hstop _ h
  cases hr
  refine ⟨rfl, ?_⟩
  cases m with
  | zero => exact Gives.of_none
  | succ m =>
    rw [moreElements, hq.firstKind_eq, if_neg hcomma]
    exact Gives.of_some hq

/-- A comma after an expression makes the loop read another one. -/
theorem ReadsExpressions.more (hx : ReadsExpression .equality ts x (c :: us))
    (hc : c.kind = .comma) (hxs : ReadsExpressions us xs rest) :
    ReadsExpressions ts (x :: xs) rest := by
  obtain ⟨y, ys, rfl, hys⟩ := hxs
  refine ⟨x, y :: ys, rfl, ?_⟩
  intro m n p r q hts hstop hcomma h
  obtain ⟨q', hr, hq⟩ := hx.alone hts (.of_kind hc (by decide)) _ h
  cases hr
  refine ⟨rfl, ?_⟩
  cases m with
  | zero => exact Gives.of_none
  | succ m =>
    rw [moreElements, hq.firstKind_eq, firstKind_cons, if_pos hc]
    intro s hs
    obtain ⟨⟨y', q₁⟩, h₁, h₂⟩ := Option.bind_eq_some_iff.mp hs
    have htok : q.advance.advance.tokens = us := by
      rw [tokens_advance, tokens_advance, hq.tokens, List.tail_cons]
    obtain ⟨rfl, hmore⟩ := hys m htok hstop hcomma h₁
    obtain ⟨⟨more, q₂⟩, h₃, h₄⟩ := Option.bind_eq_some_iff.mp h₂
    obtain ⟨_, he, hq₂⟩ := hmore _ h₃
    cases he
    cases h₄
    exact ⟨_, rfl, hq₂.tokens, hq₂.reports.trans hq.reports⟩

theorem ReadsElements.empty (ht : t.kind = close) : ReadsElements close (t :: rest) [] rest := by
  intro n p hts _
  cases n with
  | zero => exact Gives.of_none
  | succ n =>
    rw [elements, peek_kind, hts, firstKind_cons, if_pos ht]
    exact Gives.of_some ⟨by rw [tokens_advance, hts, List.tail_cons], rfl⟩

/-- Elements start with the first token of an expression, so they are not taken for none. -/
theorem ReadsElements.filled (hxs : ReadsExpressions ts xs (t :: rest))
    (hlead : (firstKind ts).lead?.isSome) (ht : t.kind = close) :
    ReadsElements close ts xs rest := by
  intro n p hts hclose
  obtain ⟨y, ys, rfl, hys⟩ := hxs
  cases n with
  | zero => exact Gives.of_none
  | succ n =>
    have hne : firstKind ts ≠ close := by
      rintro he
      rw [he] at hlead
      rcases hclose with rfl | rfl <;> cases hlead
    rw [elements, peek_kind, hts, if_neg hne]
    intro s hs
    obtain ⟨⟨first, q₁⟩, h₁, h₂⟩ := Option.bind_eq_some_iff.mp hs
    have hstop : Stops .lowest (t :: rest) ∧ t.kind ≠ .comma := by
      rw [ht]
      rcases hclose with rfl | rfl <;> exact ⟨.of_kind ht (by decide), by decide⟩
    obtain ⟨rfl, hmore⟩ := hys n (p := p.advance) hts hstop.1 hstop.2 h₁
    refine Gives.bind (p := p) hmore rfl ?_ s h₂
    intro q hq
    dsimp only
    rw [hq.expect ht, ← List.map_cons, allSome_map_some]
    exact Gives.of_some hq.advance

/-- A key, a colon and a value are read, and then what comes after them. -/
theorem gives_pairs {n : Nat} {p : Cursor} {b : Option (List (Option (Expr Unit × Expr Unit)))}
    (hts : p.tokens.tail = ts) (hlead : (firstKind ts).lead?.isSome)
    (hk : ReadsExpression .equality ts k (c :: us)) (hc : c.kind = .colon)
    (hv : ReadsExpression .equality us v vs) (hvs : Stops .lowest vs)
    (h : ∀ q, p.Reads vs q → Gives p
      (if q.peek.kind = .rbrace then some (some [some (k, v)], q.advance)
      else
        match q.expect .comma with
        | (false, q) => some (none, q)
        | (true, q) => do
          let (more, q) ← pairs n q
          some (more.map (some (k, v) :: ·), q)) b rest) :
    Gives p (pairs (n + 1) p) b rest := by
  have hne : firstKind ts ≠ .rbrace := by
    intro he
    rw [he] at hlead
    cases hlead
  rw [pairs, peek_kind, hts, if_neg hne]
  refine Gives.bind (hk.alone (p := p.advance) hts (.of_kind hc (by decide))) rfl ?_
  intro q₁ hq₁
  dsimp only
  rw [hq₁.expect hc]
  have htok : q₁.advance.advance.tokens = us := by
    rw [tokens_advance, tokens_advance, hq₁.tokens, List.tail_cons]
  exact Gives.bind (hv.alone htok hvs) hq₁.reports h

theorem ReadsEntries.empty (ht : t.kind = .rbrace) : ReadsEntries (t :: rest) [] rest := by
  intro n p hts
  cases n with
  | zero => exact Gives.of_none
  | succ n =>
    rw [pairs, peek_kind, hts, firstKind_cons, if_pos ht]
    exact Gives.of_some ⟨by rw [tokens_advance, hts, List.tail_cons], rfl⟩

/-- A pair with the closing brace after it is the last one. -/
theorem ReadsEntries.last (hlead : (firstKind ts).lead?.isSome)
    (hk : ReadsExpression .equality ts k (c :: us)) (hc : c.kind = .colon)
    (hv : ReadsExpression .equality us v (t :: rest)) (ht : t.kind = .rbrace) :
    ReadsEntries ts [(k, v)] rest := by
  intro n p hts
  cases n with
  | zero => exact Gives.of_none
  | succ n =>
    refine gives_pairs hts hlead hk hc hv (.of_kind ht (by decide)) ?_
    intro q hq
    rw [hq.firstKind_eq, firstKind_cons, if_pos ht]
    exact Gives.of_some hq.advance

/-- After a comma the loop reads what is left, which may be the closing brace alone. -/
theorem ReadsEntries.cons (hlead : (firstKind ts).lead?.isSome)
    (hk : ReadsExpression .equality ts k (c :: us)) (hc : c.kind = .colon)
    (hv : ReadsExpression .equality us v (d :: vs)) (hd : d.kind = .comma)
    (hps : ReadsEntries vs ps rest) : ReadsEntries ts ((k, v) :: ps) rest := by
  intro n p hts
  cases n with
  | zero => exact Gives.of_none
  | succ n =>
    refine gives_pairs hts hlead hk hc hv (.of_kind hd (by decide)) ?_
    intro q hq
    rw [hq.firstKind_eq, firstKind_cons, hd, if_neg (by decide), hq.expect hd]
    have htok : q.advance.tokens.tail = vs := by
      rw [tokens_advance, hq.tokens, List.tail_cons]
    exact Gives.bind (hps htok) hq.reports fun q' hq' => Gives.of_some hq'

theorem ReadsPairs.one (hlead : (firstKind ts).lead?.isSome)
    (hk : ReadsExpression .equality ts k (c :: us)) (hc : c.kind = .colon)
    (hv : ReadsExpression .equality us v rest) : ReadsPairs ts [(k, v)] rest := by
  rintro rest' (⟨t, rfl, ht⟩ | ⟨d, t, rfl, hd, ht⟩)
  · exact ReadsEntries.last hlead hk hc hv ht
  · exact ReadsEntries.cons hlead hk hc hv hd (ReadsEntries.empty ht)

theorem ReadsPairs.more (hlead : (firstKind ts).lead?.isSome)
    (hk : ReadsExpression .equality ts k (c :: us)) (hc : c.kind = .colon)
    (hv : ReadsExpression .equality us v (d :: vs)) (hd : d.kind = .comma)
    (hps : ReadsPairs vs ps rest) : ReadsPairs ts ((k, v) :: ps) rest :=
  fun _ hclose => ReadsEntries.cons hlead hk hc hv hd (hps hclose)

end Lists

/-! ## Statements and blocks -/

/-- A statement is read, and after it the semicolon that may follow. -/
def ReadsStatement (ts : List Token) (s : Stmt Unit) (rest : List Token) : Prop :=
  ∀ ⦃n p r⦄, p.tokens = ts → Stops .lowest rest → statement n p = some r →
    ∃ q, r = (some s, q.skipTerminator) ∧ p.Reads rest q

/-- Where statements may stop: at the end, and in a block before a closing brace. -/
def EndsStatements (inBlock : Bool) (rest : List Token) : Prop :=
  rest = [] ∨ inBlock = true ∧ firstKind rest = .rbrace

/-- Statements are read up to where they may stop. -/
def ReadsStatements (ts : List Token) (b : List (Stmt Unit)) (rest : List Token) : Prop :=
  ∀ ⦃n inBlock p r⦄, p.tokens = ts → EndsStatements inBlock rest →
    statements n inBlock p = some r → ∃ q, r = (b, q) ∧ q.tokens = rest ∧ q.reports = p.reports

/-- A block is read from the token before its opening brace on. -/
def ReadsBraced (ts : List Token) (b : List (Stmt Unit)) (rest : List Token) : Prop :=
  ∀ ⦃n p⦄, p.tokens.tail = ts → Gives p (statements n true p.advance.advance) b rest

/-- Where statements stop, no expression goes on and no semicolon is read. -/
theorem EndsStatements.stops {inBlock : Bool} {rest : List Token} {l : Precedence}
    (h : EndsStatements inBlock rest) : Stops l rest ∧ firstKind rest ≠ .semicolon := by
  rcases h with rfl | ⟨_, hk⟩
  · exact ⟨.of_mem (by decide), by decide⟩
  · rw [hk]
    exact ⟨.of_mem (by rw [hk]; decide), by decide⟩

section Blocks

variable {t u v : Token} {ts us rest : List Token} {x : Expr Unit} {s : Stmt Unit}
  {b : List (Stmt Unit)}

theorem ReadsStatement.bind (ht : t.kind = .letWord) (hu : u.kind = .ident)
    (hv : v.kind = .assign) (hx : ReadsExpression .equality ts x rest) :
    ReadsStatement (t :: u :: v :: ts) (.bind u.literal x) rest := by
  intro n p r hts hstop h
  cases n with
  | zero => cases h
  | succ n =>
    have hp : p.Reads (u :: v :: ts) p := ⟨by rw [hts, List.tail_cons], rfl⟩
    have hcur : p.advance.current = u := current_of_tokens (by rw [tokens_advance, hp.tokens])
    rw [Production.statement, current_of_tokens hts, ht] at h
    dsimp only at h
    rw [hp.expect hu] at h
    dsimp only at h
    rw [hp.advance.expect hv, hcur] at h
    obtain ⟨⟨x', q⟩, h₁, h₂⟩ := Option.bind_eq_some_iff.mp h
    obtain ⟨_, he, hq⟩ := hx.alone (by simp [hts]) hstop _ h₁
    cases he
    cases h₂
    exact ⟨q, rfl, hq.tokens, hq.reports⟩

theorem ReadsStatement.ret (ht : t.kind = .returnWord)
    (hx : ReadsExpression .equality ts x rest) : ReadsStatement (t :: ts) (.ret x) rest := by
  intro n p r hts hstop h
  cases n with
  | zero => cases h
  | succ n =>
    rw [Production.statement, current_of_tokens hts, ht] at h
    obtain ⟨⟨x', q⟩, h₁, h₂⟩ := Option.bind_eq_some_iff.mp h
    obtain ⟨_, he, hq⟩ := hx.alone (by simp [hts]) hstop _ h₁
    cases he
    cases h₂
    exact ⟨q, rfl, hq.tokens, hq.reports⟩

/-- What starts with neither `let` nor `return` is read as an expression. -/
theorem ReadsStatement.expr (hlead : (firstKind ts).lead?.isSome)
    (hx : ReadsExpression .equality ts x rest) : ReadsStatement ts (.expr x) rest := by
  intro n p r hts hstop h
  cases n with
  | zero => cases h
  | succ n =>
    rw [← hts, ← current_kind] at hlead
    rw [Production.statement] at h
    split at h
    · next hlet => rw [hlet] at hlead; cases hlead
    · next hret => rw [hret] at hlead; cases hlead
    · obtain ⟨⟨x', q⟩, h₁, h₂⟩ := Option.bind_eq_some_iff.mp h
      obtain ⟨_, he, hq⟩ := hx.alone hts hstop _ h₁
      cases he
      cases h₂
      exact ⟨q, rfl, hq⟩

theorem ReadsStatements.nil : ReadsStatements rest [] rest := by
  intro n inBlock p r hts hend h
  cases n with
  | zero => cases h
  | succ n =>
    have hc : p.current.kind = .eof ∨ inBlock = true ∧ p.current.kind = .rbrace := by
      rw [current_kind, hts]
      exact hend.imp_left fun he => by rw [he, firstKind_nil]
    rw [Production.statements, if_pos hc] at h
    cases h
    exact ⟨p, rfl, hts, rfl⟩

/-- Statements are read, and after them the reading goes on, whatever follows. -/
def ReadsPrefix (ts : List Token) (b : List (Stmt Unit)) (us : List Token) : Prop :=
  ∀ ⦃n inBlock p r⦄, p.tokens = ts → statements n inBlock p = some r →
    ∃ m q r', q.tokens = us ∧ q.reports = p.reports ∧ statements m inBlock q = some r' ∧
      r = (b ++ r'.1, r'.2)

namespace ReadsPrefix

variable {c : List (Stmt Unit)}

theorem nil : ReadsPrefix ts [] ts :=
  fun n _ p r hts h => ⟨n, p, r, hts, rfl, h, rfl⟩

theorem trans (hb : ReadsPrefix ts b us) (hc : ReadsPrefix us c rest) :
    ReadsPrefix ts (b ++ c) rest := by
  intro n inBlock p r hts h
  obtain ⟨m, q, r', hus, hreports, h', rfl⟩ := hb hts h
  obtain ⟨k, q', r'', hrest, hreports', h'', rfl⟩ := hc hus h'
  exact ⟨k, q', r'', hrest, hreports'.trans hreports, h'', by rw [List.append_assoc]⟩

/-- What follows may be read up to where it stops. -/
theorem append (hb : ReadsPrefix ts b us) (hc : ReadsStatements us c rest) :
    ReadsStatements ts (b ++ c) rest := by
  intro n inBlock p r hts hend h
  obtain ⟨m, q, r', hus, hreports, h', rfl⟩ := hb hts h
  obtain ⟨q', rfl, hrest, hreports'⟩ := hc hus hend h'
  exact ⟨q', rfl, hrest, hreports'.trans hreports⟩

/-- One statement. `us` is what follows it and its semicolon. -/
theorem one {ws : List Token} (hstart : Starts (firstKind ts)) (hs : ReadsStatement ts s ws)
    (hstop : Stops .lowest ws)
    (hskip : ∀ {p q : Cursor}, p.Reads ws q → p.Reads us q.skipTerminator) :
    ReadsPrefix ts [s] us := by
  intro n inBlock p r hts h
  cases n with
  | zero => cases h
  | succ n =>
    have hc : ¬(p.current.kind = .eof ∨ inBlock = true ∧ p.current.kind = .rbrace) := by
      rw [current_kind, hts]
      revert hstart
      unfold Starts
      cases firstKind ts <;> simp [TokenKind.lead?]
    rw [Production.statements, if_neg hc] at h
    obtain ⟨⟨s', p₁⟩, h₁, h₂⟩ := Option.bind_eq_some_iff.mp h
    obtain ⟨⟨b', p₂⟩, h₃, h₄⟩ := Option.bind_eq_some_iff.mp h₂
    obtain ⟨q, he, hq⟩ := hs hts hstop h₁
    cases he
    cases h₄
    have hus := hskip hq
    exact ⟨n, q.skipTerminator.advance, (b', p₂), by rw [tokens_advance, hus.tokens], hus.reports,
      h₃, rfl⟩

/-- A statement with its semicolon is read whatever comes next. -/
theorem ended (hstart : Starts (firstKind ts)) (hs : ReadsStatement ts s (t :: us))
    (ht : t.kind = .semicolon) : ReadsPrefix ts [s] us := by
  refine one hstart hs (.of_kind ht (by decide)) ?_
  intro p q hq
  unfold skipTerminator
  rw [if_pos (hq.firstKind_eq.trans ht)]
  exact hq.advance

/-- A statement without its semicolon is read if what comes next does not go on with it. -/
theorem unended (hstart : Starts (firstKind ts)) (hs : ReadsStatement ts s us)
    (hus : Stops .lowest us ∧ firstKind us ≠ .semicolon) : ReadsPrefix ts [s] us := by
  refine one hstart hs hus.1 ?_
  intro p q hq
  unfold skipTerminator
  rw [if_neg (by rw [hq.firstKind_eq]; exact hus.2)]
  exact hq

end ReadsPrefix

/-- A statement without a semicolon stops before the next one. -/
theorem Statements.stops (h : Statements us b rest) (hb : b ≠ [])
    (hne : b ≠ [] → firstKind us ∉ ambiguous) :
    Stops .lowest us ∧ firstKind us ≠ .semicolon := by
  rcases h.starts with ⟨hnil, -⟩ | ⟨-, hstart⟩
  · exact absurd hnil hb
  · refine ⟨hstart.stops (hne hb), ?_⟩
    intro he
    rw [he] at hstart
    rcases hstart with h | h | h <;> cases h

theorem ReadsStatements.unended (hstart : Starts (firstKind ts)) (hs : ReadsStatement ts s us)
    (hne : b ≠ [] → firstKind us ∉ ambiguous) (hnext : Statements us b rest)
    (hb : ReadsStatements us b rest) : ReadsStatements ts (s :: b) rest := by
  intro n inBlock p r hts hend h
  have hus : Stops .lowest us ∧ firstKind us ≠ .semicolon := by
    rcases hnext.starts with ⟨-, rfl⟩ | ⟨hb, -⟩
    · exact hend.stops
    · exact hnext.stops hb hne
  exact (ReadsPrefix.unended hstart hs hus).append hb hts hend h

/-- A block is read with its closing brace. -/
theorem ReadsBraced.closed (hb : ReadsStatements ts b (u :: rest)) (hu : u.kind = .rbrace) :
    ReadsBraced (t :: ts) b rest := by
  intro n p hts r hr
  obtain ⟨q, he, htok, hrep⟩ := hb (by simp [hts]) (Or.inr ⟨rfl, hu⟩) hr
  exact ⟨q, he, by rw [htok, List.tail_cons], hrep⟩

/-- A block that runs to the end needs no closing brace. -/
theorem ReadsBraced.unclosed (hb : ReadsStatements ts b []) : ReadsBraced (t :: ts) b [] := by
  intro n p hts r hr
  obtain ⟨q, he, htok, hrep⟩ := hb (by simp [hts]) (Or.inl rfl) hr
  exact ⟨q, he, by rw [htok, List.tail_nil], hrep⟩

end Blocks

/-! ## Operands -/

namespace ReadsPrimary

variable {t u : Token} {ts us vs rest : List Token} {x : Expr Unit} {b c : List (Stmt Unit)}

/-- The rules about operands come down to the production for the kind of their first token. -/
theorem of_kind {k : TokenKind} {lead : Lead} (ht : t.kind = k) (hlead : k.lead? = some lead)
    (h : ∀ {n p}, p.tokens = t :: ts → firstKind rest ≠ .elseWord →
      Gives p (operand (n + 1) lead p) (some x) rest) : ReadsPrimary (t :: ts) x rest := by
  refine ⟨lead, by rw [firstKind_cons, ht, hlead], ?_⟩
  intro n p hts hrest
  cases n with
  | zero => exact Gives.of_none
  | succ n => exact h hts hrest

theorem name (ht : t.kind = .ident) : ReadsPrimary (t :: rest) (.name t.literal) rest := by
  refine of_kind ht rfl ?_
  intro n p hts _
  rw [operand, current_of_tokens hts]
  exact Gives.of_some ⟨by rw [hts, List.tail_cons], rfl⟩

/-- A digit run is read as its number, which is in range because it is that of a 64-bit integer. -/
theorem int {k : Int64} (ht : t.kind = .int)
    (hk : k.toInt = (Nat.ofDigitChars 10 t.literal.toList 0 : Int)) :
    ReadsPrimary (t :: rest) (.int k) rest := by
  refine of_kind ht rfl ?_
  intro n p hts _
  rw [operand, current_of_tokens hts, readInteger?_eq_some_iff.mpr hk]
  exact Gives.of_some ⟨by rw [hts, List.tail_cons], rfl⟩

theorem text (ht : t.kind = .string) : ReadsPrimary (t :: rest) (.text t.literal) rest := by
  refine of_kind ht rfl ?_
  intro n p hts _
  rw [operand, current_of_tokens hts]
  exact Gives.of_some ⟨by rw [hts, List.tail_cons], rfl⟩

theorem truth {k : TokenKind} {a : Bool} (ht : t.kind = k) (hk : k.lead? = some (.truth a)) :
    ReadsPrimary (t :: rest) (.bool a) rest := by
  refine of_kind ht hk ?_
  intro n p hts _
  rw [operand]
  exact Gives.of_some ⟨by rw [hts, List.tail_cons], rfl⟩

/-- Between parentheses the minimum starts over. -/
theorem group (ht : t.kind = .lparen) (hx : ReadsExpression .equality ts x (u :: rest))
    (hu : u.kind = .rparen) : ReadsPrimary (t :: ts) x rest := by
  refine of_kind ht rfl ?_
  intro n p hts _
  rw [operand]
  refine Gives.bind (hx.alone (by simp [hts]) (.of_kind hu (by decide))) rfl ?_
  intro q hq
  dsimp only
  rw [hq.expect hu]
  exact Gives.of_some hq.advance

theorem array {xs : List (Expr Unit)} (ht : t.kind = .lbracket)
    (hxs : ReadsElements .rbracket ts xs rest) : ReadsPrimary (t :: ts) (.array xs) rest := by
  refine of_kind ht rfl ?_
  intro n p hts _
  rw [operand]
  refine Gives.bind (hxs (by simp [hts]) (Or.inr rfl)) rfl ?_
  exact fun q hq => Gives.of_some hq

theorem hash {ps : List (Expr Unit × Expr Unit)} (ht : t.kind = .lbrace)
    (hps : ReadsEntries ts ps rest) : ReadsPrimary (t :: ts) (.hash ps) rest := by
  refine of_kind ht rfl ?_
  intro n p hts _
  rw [operand]
  refine Gives.bind (hps (by simp [hts])) rfl ?_
  intro q hq
  dsimp only
  rw [Option.bind_some, allSome_map_some]
  exact Gives.of_some hq

/-- A test and the block after it are read, and then what comes after them. -/
theorem gives_conditional {n : Nat} {p : Cursor} {y : Option (Expr Unit)}
    (hts : p.tokens = t :: ts) (hx : ReadsExpression .equality ts x us)
    (hopen : firstKind us = .lbrace) (hb : ReadsBraced us b vs)
    (h : ∀ q, p.Reads vs q → Gives p
      (if q.peek.kind = .elseWord then
        match q.advance.expect .lbrace with
        | (false, q) => some (none, q)
        | (true, q) => do
          let (no, q) ← statements n true q.advance
          some (some (.cond x b (some no)), q)
      else some (some (.cond x b none), q)) y rest) :
    Gives p (conditional (n + 1) p) y rest := by
  obtain ⟨w, ws, rfl, hw⟩ := exists_cons_of_firstKind hopen (by decide)
  rw [conditional]
  refine Gives.bind (hx.alone (by simp [hts]) (.of_kind hw (by decide))) rfl ?_
  intro q₁ hq₁
  dsimp only
  rw [hq₁.expect hw]
  exact Gives.bind (hb hq₁.tokens) hq₁.reports h

theorem cond (ht : t.kind = .ifWord) (hx : ReadsExpression .equality ts x us)
    (hopen : firstKind us = .lbrace) (hb : ReadsBraced us b rest) :
    ReadsPrimary (t :: ts) (.cond x b none) rest := by
  refine of_kind ht rfl ?_
  intro n p hts hrest
  rw [operand]
  cases n with
  | zero => exact Gives.of_none
  | succ n =>
    refine gives_conditional hts hx hopen hb ?_
    intro q hq
    rw [hq.firstKind_eq, if_neg hrest]
    exact Gives.of_some hq

/-- An `else` after the first block is read with the block that follows it. -/
theorem condElse (ht : t.kind = .ifWord) (hx : ReadsExpression .equality ts x us)
    (hopen : firstKind us = .lbrace) (hb : ReadsBraced us b (u :: vs)) (hu : u.kind = .elseWord)
    (hopen' : firstKind vs = .lbrace) (hc : ReadsBraced vs c rest) :
    ReadsPrimary (t :: ts) (.cond x b (some c)) rest := by
  refine of_kind ht rfl ?_
  intro n p hts hrest
  rw [operand]
  cases n with
  | zero => exact Gives.of_none
  | succ n =>
    refine gives_conditional hts hx hopen hb ?_
    intro q hq
    obtain ⟨w, ws, rfl, hw⟩ := exists_cons_of_firstKind hopen' (by decide)
    rw [hq.firstKind_eq, firstKind_cons, if_pos hu, hq.advance.expect hw]
    exact Gives.bind (hc hq.advance.tokens) hq.reports fun r hr => Gives.of_some hr

/-- A function is read as its parameters and its block. -/
theorem fn {ns : List String} (ht : t.kind = .fnWord) (hu : u.kind = .lparen)
    (hns : Parameters ts ns us) (hopen : firstKind us = .lbrace) (hb : ReadsBraced us b rest) :
    ReadsPrimary (t :: u :: ts) (.fn () ns b) rest := by
  refine of_kind ht rfl ?_
  intro n p hts hrest
  rw [operand]
  cases n with
  | zero => exact Gives.of_none
  | succ n =>
    have hp : p.Reads (u :: ts) p := ⟨by rw [hts, List.tail_cons], rfl⟩
    obtain ⟨w, ws, rfl, hw⟩ := exists_cons_of_firstKind hopen (by decide)
    rw [function, hp.expect hu]
    refine Gives.bind (hns.read hp.advance.tokens) rfl ?_
    intro q hq
    dsimp only
    rw [hq.expect hw]
    exact Gives.bind (hb hq.tokens) hq.reports fun r hr => Gives.of_some hr

end ReadsPrimary

/-! ## Derivations -/

mutual

theorem Expression.read {l : Precedence} {ts : List Token} {x : Expr Unit} {rest : List Token} :
    Expression l ts x rest → ReadsExpression l ts x rest
  | .tighter hlm hx => .tighter hlm hx.read
  | .binary hlm hop hx hy => .binary hlm hop hx.read hy.read
  | .unary hop hx => .unary hop hx.read
  | .call hf ht hxs => hf.read.call ht hxs.read
  | .index hx ht hi hu => hx.read.index ht hi.read hu
  | .primary hx => .primary hx.read

theorem Primary.read {ts : List Token} {x : Expr Unit} {rest : List Token} :
    Primary ts x rest → ReadsPrimary ts x rest
  | .name ht => .name ht
  | .int ht hk => .int ht hk
  | .text ht => .text ht
  | .yes ht => .truth ht rfl
  | .no ht => .truth ht rfl
  | .group ht hx hu => .group ht hx.read hu
  | .array ht hxs => .array ht hxs.read
  | .hash ht hps => .hash ht hps.read
  | .cond ht hx hb => .cond ht hx.read hb.firstKind_eq hb.read
  | .condElse ht hx hb hu hc =>
    .condElse ht hx.read hb.firstKind_eq hb.read hu hc.firstKind_eq hc.read
  | .fn ht hu hns hb => .fn ht hu hns hb.firstKind_eq hb.read

theorem Expressions.read {ts : List Token} {xs : List (Expr Unit)} {rest : List Token} :
    Expressions ts xs rest → ReadsExpressions ts xs rest
  | .one hx => .one hx.read
  | .more hx hc hxs => .more hx.read hc hxs.read

theorem Elements.read {close : TokenKind} {ts : List Token} {xs : List (Expr Unit)}
    {rest : List Token} : Elements close ts xs rest → ReadsElements close ts xs rest
  | .empty ht => .empty ht
  | .filled hxs ht => .filled hxs.read hxs.lead ht

theorem Pairs.read {ts : List Token} {ps : List (Expr Unit × Expr Unit)} {rest : List Token} :
    Pairs ts ps rest → ReadsPairs ts ps rest
  | .one hk hc hv => .one hk.lead hk.read hc hv.read
  | .more hk hc hv hd hps => .more hk.lead hk.read hc hv.read hd hps.read

theorem Entries.read {ts : List Token} {ps : List (Expr Unit × Expr Unit)} {rest : List Token} :
    Entries ts ps rest → ReadsEntries ts ps rest
  | .empty ht => .empty ht
  | .filled hps ht => hps.read (Or.inl ⟨_, rfl, ht⟩)
  | .comma hps hc ht => hps.read (Or.inr ⟨_, _, rfl, hc, ht⟩)

theorem Statement.read {ts : List Token} {s : Stmt Unit} {rest : List Token} :
    Statement ts s rest → ReadsStatement ts s rest
  | .bind ht hu hv hx => .bind ht hu hv hx.read
  | .ret ht hx => .ret ht hx.read
  | .expr hx => .expr hx.lead hx.read

theorem Statements.read {ts : List Token} {b : List (Stmt Unit)} {rest : List Token} :
    Statements ts b rest → ReadsStatements ts b rest
  | .nil => .nil
  | .ended hs ht hb => (ReadsPrefix.ended hs.starts hs.read ht).append hb.read
  | .unended hs hne hb => .unended hs.starts hs.read hne hb hb.read

theorem Braced.read {ts : List Token} {b : List (Stmt Unit)} {rest : List Token} :
    Braced ts b rest → ReadsBraced ts b rest
  | .closed _ hb hu => .closed hb.read hu
  | .unclosed _ hb => .unclosed hb.read

end

end Grammar

end ClosureLang
