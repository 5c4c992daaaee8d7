import ClosureLang.Proofs.Parse.Moves

/-!
# What is read without a report is in the grammar

A production that adds no report has read what the grammar calls for, and the tree it gives is that
of the derivation (`Production.sound`).

The operators after an operand are read in a loop, while the grammar has them in levels. The loop
keeps this: the tree so far is of some level `k`, and what comes next binds no tighter than `k`. An
operator of level `l ≤ k` then makes a tree of level `l`, and what comes after its right operand
binds no tighter than `l`.
-/

namespace ClosureLang

open Grammar

namespace Grammar

/-- The token that ends a source is not among the tokens. -/
def NoEnd (ts : List Token) : Prop := ∀ t ∈ ts, t.kind ≠ .eof

/-- A cursor that moves leaves tokens behind and sees no new ones. -/
theorem NoEnd.of_moves {p q : Cursor} (h : NoEnd p.tokens) (m : p.Moves q) : NoEnd q.tokens :=
  fun t ht => h t (m.tokens.mem ht)

theorem NoEnd.eq_nil {ts : List Token} (h : NoEnd ts) (hts : firstKind ts = .eof) : ts = [] := by
  cases ts with
  | nil => rfl
  | cons t ts => exact absurd hts (h t List.mem_cons_self)

end Grammar

namespace Production

open Cursor

/-! ## Parameters -/

/-- Names that are read without a report are names of the grammar, up to the last one. -/
theorem names_sound {n : Nat} {p q : Cursor} {r : Option (List String)}
    (h : names n p = some (r, q)) (hq : Quiet p q) :
    ∃ ns, r = some ns ∧ Names p.tokens ns q.tokens.tail := by
  induction n generalizing p r with
  | zero => cases h
  | succ n ih =>
    rw [names] at h
    split at h
    · next hident =>
      obtain ⟨t, ts, hts, ht⟩ := exists_of_current hident (by decide)
      rw [current_of_tokens hts] at h
      split at h
      · next hcomma =>
        obtain ⟨c, us, hus, hc⟩ := exists_of_peek hcomma (by decide)
        obtain ⟨⟨rest, p₁⟩, h₁, h₂⟩ := Option.bind_eq_some_iff.mp h
        cases h₂
        obtain ⟨ns, rfl, hns⟩ := ih h₁ hq
        rw [hts, List.tail_cons] at hus
        refine ⟨_, rfl, ?_⟩
        simp only [tokens_advance, hts, hus, List.tail_cons] at hns ⊢
        exact .more ht hc hns
      · cases h
        rw [hts]
        exact ⟨_, rfl, .one ht⟩
    · cases h
      exact absurd hq (Quiet.not_record (Moves.refl p) _)

/-- Parameters that are read without a report are those of the grammar, with the parenthesis that
closes them. -/
theorem parameters_sound {n : Nat} {p q : Cursor} {r : Option (List String)}
    (h : parameters n p = some (r, q)) (hq : Quiet p q) :
    ∃ ns, r = some ns ∧ Parameters p.tokens.tail ns q.tokens.tail := by
  rw [parameters] at h
  split at h
  · next hclose =>
    obtain ⟨t, ts, hts, ht⟩ := exists_of_peek hclose (by decide)
    cases h
    rw [tokens_advance, hts]
    exact ⟨_, rfl, .empty ht⟩
  · obtain ⟨⟨params, p₁⟩, h₁, h₂⟩ := Option.bind_eq_some_iff.mp h
    have m₁ : p.Moves p₁ := (Moves.refl p).advance.trans (names_moving n _ _ _ h₁)
    cases params with
    | none =>
      cases h₂
      obtain ⟨ns, hns, _⟩ := names_sound h₁ hq
      cases hns
    | some ns =>
      obtain ⟨hclose, h₃⟩ := Quiet.expect m₁ h₂ hq
      cases h₃
      obtain ⟨_, hns, hnames⟩ := names_sound h₁ hq
      cases hns
      obtain ⟨t, ts, hts, ht⟩ := exists_of_peek hclose (by decide)
      rw [hts] at hnames
      rw [tokens_advance, hts]
      exact ⟨_, rfl, .filled hnames ht⟩

/-! ## Expressions and statements -/

/-- What follows binds no tighter than a level. -/
def Bounded (l : Precedence) (rest : List Token) : Prop := (firstKind rest).precedence.rank ≤ l.rank

/-- Every production that may go `n` calls deep and adds no report has read what the grammar calls
for. A production for what stands between delimiters starts on the opening one. -/
structure Sound (n : Nat) : Prop where
  expression : ∀ {min p r q}, expression n min p = some (r, q) → Quiet p q → NoEnd p.tokens →
    ∃ x, r = some x ∧ Expression (levelAbove min) p.tokens x q.tokens.tail ∧
      Bounded min q.tokens.tail
  operand : ∀ {lead p r q}, operand n lead p = some (r, q) → Quiet p q → NoEnd p.tokens →
    p.current.kind.lead? = some lead →
    ∃ x k, r = some x ∧ Expression k p.tokens x q.tokens.tail ∧
      Precedence.unary.rank ≤ k.rank ∧ Bounded k q.tokens.tail
  operators : ∀ {min x p r q ts k}, operators n min (some x) p = some (r, q) → Quiet p q →
    NoEnd p.tokens → Expression k ts x p.tokens.tail → (levelAbove min).rank ≤ k.rank →
    Bounded k p.tokens.tail →
    ∃ y, r = some y ∧ Expression (levelAbove min) ts y q.tokens.tail ∧ Bounded min q.tokens.tail
  extend : ∀ {follow x p r q ts}, extend n follow (some x) p = some (r, q) → Quiet p q →
    NoEnd p.tokens → p.current.kind.follow? = some follow →
    Expression p.current.kind.precedence ts x p.tokens →
    ∃ y, r = some y ∧ Expression p.current.kind.precedence ts y q.tokens.tail ∧
      Bounded p.current.kind.precedence q.tokens.tail
  elements : ∀ {close p r q}, elements n close p = some (r, q) → close ≠ .eof → Quiet p q →
    NoEnd p.tokens → ∃ xs, r = some xs ∧ Elements close p.tokens.tail xs q.tokens.tail
  moreElements : ∀ {p rs q ts x}, moreElements n p = some (rs, q) → Quiet p q →
    NoEnd p.tokens → Expression .equality ts x p.tokens.tail →
    ∃ xs, rs = xs.map some ∧ Expressions ts (x :: xs) q.tokens.tail
  pairs : ∀ {p r q}, pairs n p = some (r, q) → Quiet p q → NoEnd p.tokens →
    ∃ ps, r = some (ps.map some) ∧ Entries p.tokens.tail ps q.tokens.tail
  conditional : ∀ {p r q}, conditional n p = some (r, q) → Quiet p q → NoEnd p.tokens →
    p.current.kind = .ifWord → ∃ x, r = some x ∧ Primary p.tokens x q.tokens.tail
  function : ∀ {p r q}, function n p = some (r, q) → Quiet p q → NoEnd p.tokens →
    p.current.kind = .fnWord → ∃ x, r = some x ∧ Primary p.tokens x q.tokens.tail
  statements : ∀ {inBlock p b q}, statements n inBlock p = some (b, q) → Quiet p q →
    NoEnd p.tokens → Statements p.tokens b q.tokens ∧
      (q.tokens = [] ∨ inBlock = true ∧ firstKind q.tokens = .rbrace)
  statement : ∀ {p r q}, statement n p = some (r, q) → Quiet p q → NoEnd p.tokens →
    ∃ s us, r = some s ∧ Statement p.tokens s us ∧ Bounded .lowest us ∧
      ((∃ t, us = t :: q.tokens.tail ∧ t.kind = .semicolon) ∨ us = q.tokens.tail)

/-! ### What the tokens stand for -/

/-- The kind of token that an operand starts with. -/
def leadKind : Lead → TokenKind
  | .name => .ident
  | .integer => .int
  | .text => .string
  | .truth true => .trueWord
  | .truth false => .falseWord
  | .unary .not => .bang
  | .unary .negate => .minus
  | .group => .lparen
  | .array => .lbracket
  | .hash => .lbrace
  | .conditional => .ifWord
  | .function => .fnWord

/-- The kind of an operand tells the kind of the token that it starts with. -/
theorem kind_of_lead? {k : TokenKind} {lead : Lead} (h : k.lead? = some lead) :
    k = leadKind lead := by
  cases k <;> cases h <;> rfl

theorem mem_unaryOperators {k : TokenKind} {op : UnaryOp} (h : k.lead? = some (.unary op)) :
    (k, op) ∈ unaryOperators := by
  revert h
  cases k <;> cases op <;> decide

/-- The token of an operation is an operator of its own level, which takes its right operand from
the next level. -/
theorem mem_binaryOperators {k : TokenKind} {op : BinaryOp}
    (h : k.follow? = some (.operation op)) :
    (k, op) ∈ binaryOperators k.precedence ∧
      tighter? k.precedence = some (levelAbove k.precedence) := by
  revert h
  cases k <;> cases op <;> decide

theorem kind_of_follow_call {k : TokenKind} (h : k.follow? = some .call) : k = .lparen := by
  revert h
  cases k <;> decide

theorem kind_of_follow_index {k : TokenKind} (h : k.follow? = some .index) : k = .lbracket := by
  revert h
  cases k <;> decide

/-- Behind an expression on its own no token stands that could go on with it. -/
theorem not_ambiguous_of_bounded {us : List Token} (h : Bounded .lowest us) :
    firstKind us ∉ ambiguous := by
  revert h
  unfold Bounded
  cases firstKind us <;> decide

/-- No token binds tighter than a call. -/
theorem bounded_call (rest : List Token) : Bounded .call rest := by
  unfold Bounded
  cases firstKind rest <;> decide

/-- Digits are read as an integer exactly if the number that they write fits, and then as that
number. -/
theorem readInteger?_eq_some_iff {digits : String} {k : Int64} :
    readInteger? digits = some k ↔ k.toInt = (Nat.ofDigitChars 10 digits.toList 0 : Int) := by
  unfold readInteger?
  generalize Nat.ofDigitChars 10 digits.toList 0 = n
  dsimp only
  constructor
  · intro h
    split at h
    · next hn =>
      cases h
      exact Int64.toInt_ofNat_of_lt hn
    · cases h
  · intro h
    have hlt := k.toInt_lt
    have hn : n < 9223372036854775808 := by omega
    rw [if_pos hn, Option.some.injEq]
    exact Int64.toInt_inj.mp ((Int64.toInt_ofNat_of_lt hn).trans h.symm)

@[simp] theorem allSome_map_some {α : Type} (xs : List α) : allSome (xs.map some) = some xs := by
  induction xs with
  | nil => rfl
  | cons x xs ih => simp [allSome, ih]

/-! ### One production at a time -/

namespace Sound

variable {n : Nat}

/-- The operand is of a level that every operator may follow, so the loop over operators can start.
-/
theorem expression_succ (ih : Sound n) {min : Precedence} {p q : Cursor} {r : Option (Expr Unit)}
    (h : Production.expression (n + 1) min p = some (r, q)) (hq : Quiet p q) (hp : NoEnd p.tokens) :
    ∃ x, r = some x ∧ Expression (levelAbove min) p.tokens x q.tokens.tail ∧
      Bounded min q.tokens.tail := by
  rw [Production.expression] at h
  split at h
  · cases h
    exact absurd hq (Quiet.not_record (Moves.refl p) _)
  · next lead hlead =>
    obtain ⟨⟨left, p₁⟩, h₁, h₂⟩ := Option.bind_eq_some_iff.mp h
    have m₁ := (moves n).operand _ _ _ _ h₁
    have m₂ := (moves n).operators _ _ _ _ _ h₂
    obtain ⟨x, k, rfl, hx, hk, hb⟩ := ih.operand h₁ (hq.left m₂) hp hlead
    exact ih.operators h₂ (hq.right m₁) (hp.of_moves m₁) hx
      (Nat.le_trans (levelAbove_le_unary min) hk) hb

/-- A primary is of the tightest level, so anything may follow it. -/
theorem of_primary {ts rest : List Token} {x : Expr Unit} (h : Primary ts x rest) :
    ∃ y k, some x = some y ∧ Expression k ts y rest ∧
      Precedence.unary.rank ≤ k.rank ∧ Bounded k rest :=
  ⟨x, .call, rfl, .primary h, by decide, bounded_call rest⟩

/-- The first token decides which construct is read. Only a unary operator leaves a tree that is not
of the tightest level. -/
theorem operand_succ (ih : Sound n) {lead : Lead} {p q : Cursor} {r : Option (Expr Unit)}
    (h : Production.operand (n + 1) lead p = some (r, q)) (hq : Quiet p q) (hp : NoEnd p.tokens)
    (hlead : p.current.kind.lead? = some lead) :
    ∃ x k, r = some x ∧ Expression k p.tokens x q.tokens.tail ∧
      Precedence.unary.rank ≤ k.rank ∧ Bounded k q.tokens.tail := by
  have hkind := kind_of_lead? hlead
  have hne : leadKind lead ≠ .eof := by cases lead <;> simp [leadKind] <;> split <;> simp
  obtain ⟨t, ts, hts, ht⟩ := exists_of_current hkind hne
  have hnext : NoEnd p.advance.tokens := hp.of_moves (Moves.refl p).advance
  cases lead <;> rw [Production.operand] at h
  case name =>
    cases h
    rw [current_of_tokens hts, hts]
    exact of_primary (.name ht)
  case integer =>
    rw [current_of_tokens hts] at h
    split at h
    · next k hk =>
      cases h
      rw [hts]
      exact of_primary (.int ht (readInteger?_eq_some_iff.mp hk))
    · cases h
      exact absurd hq (Quiet.not_record (Moves.refl p) _)
  case text =>
    cases h
    rw [current_of_tokens hts, hts]
    exact of_primary (.text ht)
  case truth b =>
    cases h
    rw [hts]
    cases b with
    | true => exact of_primary (.yes ht)
    | false => exact of_primary (.no ht)
  case unary op =>
    obtain ⟨⟨x, p₁⟩, h₁, h₂⟩ := Option.bind_eq_some_iff.mp h
    cases h₂
    obtain ⟨y, rfl, hy, hb⟩ := ih.expression h₁ hq hnext
    rw [tokens_advance, hts, List.tail_cons] at hy
    have hop := mem_unaryOperators hlead
    rw [current_of_tokens hts] at hop
    rw [hts]
    exact ⟨_, .unary, rfl, .unary hop hy, Nat.le_refl _, hb⟩
  case group =>
    obtain ⟨⟨x, p₁⟩, h₁, h₂⟩ := Option.bind_eq_some_iff.mp h
    have m₁ := (Moves.refl p).advance.trans ((moves n).expression _ _ _ _ h₁)
    obtain ⟨hclose, h₃⟩ := Quiet.expect m₁ h₂ hq
    cases h₃
    obtain ⟨y, rfl, hy, _⟩ := ih.expression h₁ hq hnext
    obtain ⟨u, us, hus, hu⟩ := exists_of_peek hclose (by decide)
    rw [tokens_advance, hts, List.tail_cons, hus] at hy
    rw [tokens_advance, hts, hus]
    exact of_primary (.group ht hy hu)
  case array =>
    obtain ⟨⟨xs, p₁⟩, h₁, h₂⟩ := Option.bind_eq_some_iff.mp h
    cases h₂
    obtain ⟨ys, rfl, hys⟩ := ih.elements h₁ (by decide) hq hp
    rw [hts, List.tail_cons] at hys
    rw [hts]
    exact of_primary (.array ht hys)
  case hash =>
    obtain ⟨⟨ps, p₁⟩, h₁, h₂⟩ := Option.bind_eq_some_iff.mp h
    cases h₂
    obtain ⟨qs, rfl, hqs⟩ := ih.pairs h₁ hq hp
    rw [hts, List.tail_cons] at hqs
    rw [hts, Option.bind_some, allSome_map_some]
    exact of_primary (.hash ht hqs)
  case conditional =>
    obtain ⟨x, rfl, hx⟩ := ih.conditional h hq hp hkind
    exact of_primary hx
  case function =>
    obtain ⟨x, rfl, hx⟩ := ih.function h hq hp hkind
    exact of_primary hx

/-- One turn of the loop over operators. The tree so far is of level `k`, and what comes next binds
no tighter; an operator that is taken makes a tree of its own level. -/
theorem operators_succ (ih : Sound n) {min k : Precedence} {x : Expr Unit} {p q : Cursor}
    {r : Option (Expr Unit)} {ts : List Token}
    (h : Production.operators (n + 1) min (some x) p = some (r, q)) (hq : Quiet p q)
    (hp : NoEnd p.tokens) (hx : Expression k ts x p.tokens.tail)
    (hk : (levelAbove min).rank ≤ k.rank) (hb : Bounded k p.tokens.tail) :
    ∃ y, r = some y ∧ Expression (levelAbove min) ts y q.tokens.tail ∧
      Bounded min q.tokens.tail := by
  rw [Production.operators] at h
  split at h
  · next hlt =>
    split at h
    · next hnone =>
      -- A token above the lowest level can follow an operand.
      have hlow : Precedence.lowest < p.peek.kind.precedence :=
        Nat.lt_of_le_of_lt (Nat.zero_le _) hlt
      rw [TokenKind.lowest_lt_iff, hnone] at hlow
      cases hlow
    · next follow hfollow =>
      obtain ⟨⟨left, p₁⟩, h₁, h₂⟩ := Option.bind_eq_some_iff.mp h
      have m₁ := (Moves.refl p).advance.trans ((moves n).extend _ _ _ _ _ h₁)
      have m₂ := (moves n).operators _ _ _ _ _ h₂
      have hcur : p.advance.current.kind = p.peek.kind := by
        rw [current_kind, peek_kind, tokens_advance]
      rw [← hcur] at hlt hfollow
      unfold Bounded at hb
      rw [← peek_kind, ← hcur] at hb
      obtain ⟨y, rfl, hy, hby⟩ := ih.extend h₁ (hq.left m₂) (hp.of_moves (Moves.refl p).advance)
        hfollow (hx.loosen hb)
      exact ih.operators h₂ (hq.right m₁) (hp.of_moves m₁) hy (levelAbove_le_of_lt hlt) hby
  · next hle =>
    cases h
    refine ⟨x, rfl, hx.loosen hk, ?_⟩
    unfold Bounded
    rw [← peek_kind]
    exact Nat.le_of_not_lt hle

/-- An operator, argument list or index makes a tree of the level of the token that it starts with.
-/
theorem extend_succ (ih : Sound n) {follow : Follow} {x : Expr Unit} {p q : Cursor}
    {r : Option (Expr Unit)} {ts : List Token}
    (h : Production.extend (n + 1) follow (some x) p = some (r, q)) (hq : Quiet p q)
    (hp : NoEnd p.tokens) (hfollow : p.current.kind.follow? = some follow)
    (hx : Expression p.current.kind.precedence ts x p.tokens) :
    ∃ y, r = some y ∧ Expression p.current.kind.precedence ts y q.tokens.tail ∧
      Bounded p.current.kind.precedence q.tokens.tail := by
  have hnext : NoEnd p.advance.tokens := hp.of_moves (Moves.refl p).advance
  cases follow <;> rw [Production.extend] at h
  case operation op =>
    obtain ⟨⟨right, p₁⟩, h₁, h₂⟩ := Option.bind_eq_some_iff.mp h
    cases h₂
    obtain ⟨y, rfl, hy, hb⟩ := ih.expression h₁ hq hnext
    obtain ⟨hop, htight⟩ := mem_binaryOperators hfollow
    obtain ⟨t, us, hus, ht⟩ := exists_of_current (p := p) rfl (by
      intro he; rw [he] at hfollow; cases hfollow)
    rw [tokens_advance, hus, List.tail_cons] at hy
    rw [hus] at hx
    rw [← ht] at hop htight hx hy ⊢
    exact ⟨_, rfl, .binary htight hop hx hy, ht ▸ hb⟩
  case call =>
    have hkind := kind_of_follow_call hfollow
    obtain ⟨⟨args, p₁⟩, h₁, h₂⟩ := Option.bind_eq_some_iff.mp h
    cases h₂
    obtain ⟨xs, rfl, hxs⟩ := ih.elements h₁ (by decide) hq hp
    obtain ⟨t, us, hus, ht⟩ := exists_of_current hkind (by decide)
    rw [hkind, hus] at hx
    rw [hus, List.tail_cons] at hxs
    rw [hkind]
    exact ⟨_, rfl, .call hx ht hxs, bounded_call _⟩
  case index =>
    have hkind := kind_of_follow_index hfollow
    obtain ⟨⟨key, p₁⟩, h₁, h₂⟩ := Option.bind_eq_some_iff.mp h
    have m₁ := (Moves.refl p).advance.trans ((moves n).expression _ _ _ _ h₁)
    obtain ⟨hclose, h₃⟩ := Quiet.expect m₁ h₂ hq
    cases h₃
    obtain ⟨i, rfl, hi, _⟩ := ih.expression h₁ hq hnext
    obtain ⟨t, us, hus, ht⟩ := exists_of_current hkind (by decide)
    obtain ⟨u, vs, hvs, hu⟩ := exists_of_peek hclose (by decide)
    rw [hkind, hus] at hx
    rw [tokens_advance, hus, List.tail_cons, hvs] at hi
    rw [hkind, tokens_advance, hvs]
    exact ⟨_, rfl, .index hx ht hi hu, bounded_call _⟩

theorem elements_succ (ih : Sound n) {close : TokenKind} {p q : Cursor}
    {r : Option (List (Expr Unit))} (h : Production.elements (n + 1) close p = some (r, q))
    (hclose : close ≠ .eof) (hq : Quiet p q) (hp : NoEnd p.tokens) :
    ∃ xs, r = some xs ∧ Elements close p.tokens.tail xs q.tokens.tail := by
  rw [Production.elements] at h
  split at h
  · next hpeek =>
    cases h
    obtain ⟨t, ts, hts, ht⟩ := exists_of_peek hpeek hclose
    rw [tokens_advance, hts]
    exact ⟨_, rfl, .empty ht⟩
  · obtain ⟨⟨first, p₁⟩, h₁, h₂⟩ := Option.bind_eq_some_iff.mp h
    obtain ⟨⟨rest, p₂⟩, h₃, h₄⟩ := Option.bind_eq_some_iff.mp h₂
    have m₁ := (Moves.refl p).advance.trans ((moves n).expression _ _ _ _ h₁)
    have m₂ := (moves n).moreElements _ _ _ h₃
    obtain ⟨hpeek, h₅⟩ := Quiet.expect (m₁.trans m₂) h₄ hq
    cases h₅
    have hq₂ : Quiet p p₂ := hq
    obtain ⟨x, rfl, hx, _⟩ := ih.expression h₁ (hq₂.left m₂) (hp.of_moves (Moves.refl p).advance)
    obtain ⟨xs, rfl, hxs⟩ := ih.moreElements h₃ (hq₂.right m₁) (hp.of_moves m₁) hx
    obtain ⟨t, ts, hts, ht⟩ := exists_of_peek hpeek hclose
    rw [hts] at hxs
    rw [tokens_advance, hts]
    exact ⟨x :: xs, allSome_map_some (x :: xs), .filled hxs ht⟩

/-- The expressions after commas continue a list whose first expression `x` was read before. -/
theorem moreElements_succ (ih : Sound n) {p q : Cursor} {rs : List (Option (Expr Unit))}
    {ts : List Token} {x : Expr Unit} (h : Production.moreElements (n + 1) p = some (rs, q))
    (hq : Quiet p q) (hp : NoEnd p.tokens) (hx : Expression .equality ts x p.tokens.tail) :
    ∃ xs, rs = xs.map some ∧ Expressions ts (x :: xs) q.tokens.tail := by
  rw [Production.moreElements] at h
  split at h
  · next hcomma =>
    obtain ⟨⟨y, p₁⟩, h₁, h₂⟩ := Option.bind_eq_some_iff.mp h
    obtain ⟨⟨rest, p₂⟩, h₃, h₄⟩ := Option.bind_eq_some_iff.mp h₂
    cases h₄
    have m₁ := (Moves.refl p).advance.advance.trans ((moves n).expression _ _ _ _ h₁)
    have m₂ := (moves n).moreElements _ _ _ h₃
    obtain ⟨y, rfl, hy, _⟩ := ih.expression h₁ (hq.left m₂)
      (hp.of_moves (Moves.refl p).advance.advance)
    obtain ⟨ys, rfl, hys⟩ := ih.moreElements h₃ (hq.right m₁) (hp.of_moves m₁) hy
    obtain ⟨c, us, hus, hc⟩ := exists_of_peek hcomma (by decide)
    rw [hus] at hx
    rw [tokens_advance, tokens_advance, hus] at hys
    exact ⟨y :: ys, rfl, .more hx hc hys⟩
  · cases h
    exact ⟨[], rfl, .one hx⟩

/-- A pair and a comma before the pairs of a hash literal. -/
theorem entries_cons {c d : Token} {ts us vs : List Token} {k v : Expr Unit}
    {ps : List (Expr Unit × Expr Unit)} {rest : List Token}
    (hk : Expression .equality ts k (c :: us)) (hc : c.kind = .colon)
    (hv : Expression .equality us v (d :: vs)) (hd : d.kind = .comma) (h : Entries vs ps rest) :
    Entries ts ((k, v) :: ps) rest := by
  cases h with
  | empty ht => exact .comma (.one hk hc hv) hd ht
  | filled hps ht => exact .filled (.more hk hc hv hd hps) ht
  | comma hps he ht => exact .comma (.more hk hc hv hd hps) he ht

/-- After a pair the closing brace comes, or a comma and then the rest of the pairs, which may be
the closing brace alone. -/
theorem pairs_succ (ih : Sound n) {p q : Cursor}
    {r : Option (List (Option (Expr Unit × Expr Unit)))}
    (h : Production.pairs (n + 1) p = some (r, q)) (hq : Quiet p q) (hp : NoEnd p.tokens) :
    ∃ ps, r = some (ps.map some) ∧ Entries p.tokens.tail ps q.tokens.tail := by
  rw [Production.pairs] at h
  split at h
  · next hpeek =>
    cases h
    obtain ⟨t, ts, hts, ht⟩ := exists_of_peek hpeek (by decide)
    rw [tokens_advance, hts]
    exact ⟨[], rfl, .empty ht⟩
  · obtain ⟨⟨key, p₁⟩, h₁, h₂⟩ := Option.bind_eq_some_iff.mp h
    have m₁ := (Moves.refl p).advance.trans ((moves n).expression _ _ _ _ h₁)
    obtain ⟨hcolon, h₃⟩ := Quiet.expect m₁ h₂ hq
    obtain ⟨⟨value, p₂⟩, h₄, h₅⟩ := Option.bind_eq_some_iff.mp h₃
    have m₂ := (Moves.refl p₁).advance.advance.trans ((moves n).expression _ _ _ _ h₄)
    obtain ⟨c, us, hus, hc⟩ := exists_of_peek hcolon (by decide)
    -- The key and the value, once it is known that nothing was reported before `p₂`.
    have hboth : Quiet p p₂ → ∃ k v, key = some k ∧ value = some v ∧
        Expression .equality p.tokens.tail k (c :: us) ∧
        Expression .equality us v p₂.tokens.tail := by
      intro hq₂
      obtain ⟨k, rfl, hk, _⟩ := ih.expression h₁ (hq₂.left m₂)
        (hp.of_moves (Moves.refl p).advance)
      obtain ⟨v, rfl, hv, _⟩ := ih.expression h₄ (hq₂.right m₁.advance.advance)
        (hp.of_moves m₁.advance.advance)
      rw [hus] at hk
      rw [tokens_advance, tokens_advance, hus] at hv
      exact ⟨k, v, rfl, rfl, hk, hv⟩
    dsimp only at h₅
    split at h₅
    · next hpeek =>
      cases h₅
      obtain ⟨k, v, rfl, rfl, hk, hv⟩ := hboth hq
      obtain ⟨t, ts, hts, ht⟩ := exists_of_peek hpeek (by decide)
      rw [hts] at hv
      rw [tokens_advance, hts]
      exact ⟨[(k, v)], rfl, .filled (.one hk hc hv) ht⟩
    · obtain ⟨hcomma, h₆⟩ := Quiet.expect (m₁.trans m₂) h₅ hq
      obtain ⟨⟨rest, p₃⟩, h₇, h₈⟩ := Option.bind_eq_some_iff.mp h₆
      cases h₈
      have m₃ := (Moves.refl p₂).advance.trans ((moves n).pairs _ _ _ h₇)
      obtain ⟨k, v, rfl, rfl, hk, hv⟩ := hboth (hq.left m₃)
      obtain ⟨ps, rfl, hps⟩ := ih.pairs h₇ (hq.right (m₁.trans m₂).advance)
        (hp.of_moves (m₁.trans m₂).advance)
      obtain ⟨d, vs, hvs, hd⟩ := exists_of_peek hcomma (by decide)
      rw [hvs] at hv
      rw [tokens_advance, hvs] at hps
      exact ⟨(k, v) :: ps, rfl, entries_cons hk hc hv hd hps⟩

/-- A block, from the brace that opens it to the one that closes it or to the end. -/
theorem braced (ih : Sound n) {p q : Cursor} {b : List (Stmt Unit)}
    (h : Production.statements n true p.advance.advance = some (b, q))
    (hopen : p.peek.kind = .lbrace) (hq : Quiet p q) (hp : NoEnd p.tokens) :
    Braced p.tokens.tail b q.tokens.tail := by
  obtain ⟨t, ts, hts, ht⟩ := exists_of_peek hopen (by decide)
  obtain ⟨hb, hend⟩ := ih.statements h hq (hp.of_moves (Moves.refl p).advance.advance)
  rw [tokens_advance, tokens_advance, hts, List.tail_cons] at hb
  rw [hts]
  rcases hend with hnil | ⟨_, hclose⟩
  · rw [hnil] at hb ⊢
    exact .unclosed ht hb
  · obtain ⟨u, us, hus, hu⟩ := exists_cons_of_firstKind hclose (by decide)
    rw [hus] at hb ⊢
    exact .closed ht hb hu

/-- The token after the first block decides whether there is a second one. -/
theorem conditional_succ (ih : Sound n) {p q : Cursor} {r : Option (Expr Unit)}
    (h : Production.conditional (n + 1) p = some (r, q)) (hq : Quiet p q) (hp : NoEnd p.tokens)
    (hif : p.current.kind = .ifWord) : ∃ x, r = some x ∧ Primary p.tokens x q.tokens.tail := by
  obtain ⟨t, ts, hts, ht⟩ := exists_of_current hif (by decide)
  rw [Production.conditional] at h
  obtain ⟨⟨test, p₁⟩, h₁, h₂⟩ := Option.bind_eq_some_iff.mp h
  have m₁ := (Moves.refl p).advance.trans ((moves n).expression _ _ _ _ h₁)
  obtain ⟨hopen, h₃⟩ := Quiet.expect m₁ h₂ hq
  obtain ⟨⟨yes, p₂⟩, h₄, h₅⟩ := Option.bind_eq_some_iff.mp h₃
  have m₂ := (Moves.refl p₁).advance.advance.trans ((moves n).statements _ _ _ _ h₄)
  -- The test and the first block, once it is known that nothing was reported before `p₂`.
  have hfirst : Quiet p p₂ → ∃ x, test = some x ∧ Expression .equality ts x p₁.tokens.tail ∧
      Braced p₁.tokens.tail yes p₂.tokens.tail := by
    intro hq₂
    obtain ⟨x, rfl, hx, _⟩ := ih.expression h₁ (hq₂.left m₂) (hp.of_moves (Moves.refl p).advance)
    rw [tokens_advance, hts, List.tail_cons] at hx
    exact ⟨x, rfl, hx, ih.braced h₄ hopen (hq₂.right m₁) (hp.of_moves m₁)⟩
  dsimp only at h₅
  split at h₅
  · next helse =>
    obtain ⟨hopen', h₆⟩ := Quiet.expect (m₁.trans m₂).advance h₅ hq
    obtain ⟨⟨no, p₃⟩, h₇, h₈⟩ := Option.bind_eq_some_iff.mp h₆
    cases h₈
    have m₃ := (Moves.refl p₂).advance.advance.advance.trans ((moves n).statements _ _ _ _ h₇)
    obtain ⟨x, rfl, hx, hyes⟩ := hfirst (hq.left m₃)
    have hno := ih.braced h₇ hopen' (hq.right (m₁.trans m₂).advance)
      (hp.of_moves (m₁.trans m₂).advance)
    obtain ⟨u, us, hus, hu⟩ := exists_of_peek helse (by decide)
    rw [hus] at hyes
    rw [tokens_advance, hus, List.tail_cons] at hno
    rw [hts]
    exact ⟨_, rfl, .condElse ht hx hyes hu hno⟩
  · cases h₅
    obtain ⟨x, rfl, hx, hyes⟩ := hfirst hq
    rw [hts]
    exact ⟨_, rfl, .cond ht hx hyes⟩

theorem function_succ (ih : Sound n) {p q : Cursor} {r : Option (Expr Unit)}
    (h : Production.function (n + 1) p = some (r, q)) (hq : Quiet p q) (hp : NoEnd p.tokens)
    (hfn : p.current.kind = .fnWord) : ∃ x, r = some x ∧ Primary p.tokens x q.tokens.tail := by
  obtain ⟨t, ts, hts, ht⟩ := exists_of_current hfn (by decide)
  rw [Production.function] at h
  obtain ⟨hopen, h₁⟩ := Quiet.expect (Moves.refl p) h hq
  obtain ⟨u, us, hus, hu⟩ := exists_of_peek hopen (by decide)
  obtain ⟨⟨params, p₁⟩, h₂, h₃⟩ := Option.bind_eq_some_iff.mp h₁
  have m₁ := (Moves.refl p).advance.trans (parameters_moving n _ _ _ h₂)
  cases params with
  | none =>
    cases h₃
    obtain ⟨ns, hns, _⟩ := parameters_sound h₂ hq
    cases hns
  | some ns =>
    obtain ⟨hbrace, h₄⟩ := Quiet.expect m₁ h₃ hq
    obtain ⟨⟨body, p₂⟩, h₅, h₆⟩ := Option.bind_eq_some_iff.mp h₄
    cases h₆
    have m₂ := (Moves.refl p₁).advance.advance.trans ((moves n).statements _ _ _ _ h₅)
    obtain ⟨_, hns, hparams⟩ := parameters_sound h₂ (hq.left m₂)
    cases hns
    have hbody := ih.braced h₅ hbrace (hq.right m₁) (hp.of_moves m₁)
    rw [tokens_advance, hus, List.tail_cons] at hparams
    rw [hts, List.tail_cons] at hus
    rw [hts, hus]
    exact ⟨_, rfl, .fn ht hu hparams hbody⟩

/-- Where a statement has no semicolon the next one starts with a token that could not go on with
it, since the expression before would have taken it. -/
theorem statements_succ (ih : Sound n) {inBlock : Bool} {p q : Cursor} {b : List (Stmt Unit)}
    (h : Production.statements (n + 1) inBlock p = some (b, q)) (hq : Quiet p q)
    (hp : NoEnd p.tokens) :
    Statements p.tokens b q.tokens ∧
      (q.tokens = [] ∨ inBlock = true ∧ firstKind q.tokens = .rbrace) := by
  rw [Production.statements] at h
  split at h
  · next hend =>
    cases h
    rw [current_kind] at hend
    exact ⟨.nil, hend.imp_left hp.eq_nil⟩
  · obtain ⟨⟨s, p₁⟩, h₁, h₂⟩ := Option.bind_eq_some_iff.mp h
    obtain ⟨⟨rest, p₂⟩, h₃, h₄⟩ := Option.bind_eq_some_iff.mp h₂
    cases h₄
    have m₁ := (moves n).statement _ _ _ h₁
    have m₂ := (Moves.refl p₁).advance.trans ((moves n).statements _ _ _ _ h₃)
    obtain ⟨s, us, rfl, hs, hb, hus⟩ := ih.statement h₁ (hq.left m₂) hp
    obtain ⟨hrest, hend⟩ := ih.statements h₃ (hq.right m₁.advance) (hp.of_moves m₁.advance)
    refine ⟨?_, hend⟩
    rw [tokens_advance] at hrest
    rcases hus with ⟨t, rfl, ht⟩ | rfl
    · exact .ended hs ht hrest
    · exact .unended hs (fun _ => not_ambiguous_of_bounded hb) hrest

/-- The semicolon after a statement is stepped onto, if it is there. -/
theorem tail_skipTerminator (p : Cursor) :
    (∃ t, p.tokens.tail = t :: p.skipTerminator.tokens.tail ∧ t.kind = .semicolon) ∨
      p.tokens.tail = p.skipTerminator.tokens.tail := by
  unfold Cursor.skipTerminator
  split
  · next hpeek =>
    obtain ⟨t, ts, hts, ht⟩ := exists_of_peek hpeek (by decide)
    rw [tokens_advance, hts]
    exact Or.inl ⟨t, rfl, ht⟩
  · exact Or.inr rfl

/-- To pass a semicolon adds no report. -/
theorem quiet_of_skipTerminator {p q : Cursor} (h : Quiet p q.skipTerminator) : Quiet p q := by
  revert h
  unfold Cursor.skipTerminator
  split <;> exact id

/-- A statement is followed by its semicolon, or by what comes after the statement. -/
theorem statement_succ (ih : Sound n) {p q : Cursor} {r : Option (Stmt Unit)}
    (h : Production.statement (n + 1) p = some (r, q)) (hq : Quiet p q) (hp : NoEnd p.tokens) :
    ∃ s us, r = some s ∧ Statement p.tokens s us ∧ Bounded .lowest us ∧
      ((∃ t, us = t :: q.tokens.tail ∧ t.kind = .semicolon) ∨ us = q.tokens.tail) := by
  rw [Production.statement] at h
  split at h
  · next hlet =>
    obtain ⟨hident, h₁⟩ := Quiet.expect (Moves.refl p) h hq
    obtain ⟨hassign, h₂⟩ := Quiet.expect (Moves.refl p).advance h₁ hq
    obtain ⟨⟨x, p₁⟩, h₃, h₄⟩ := Option.bind_eq_some_iff.mp h₂
    cases h₄
    obtain ⟨x, rfl, hx, hb⟩ := ih.expression h₃ (quiet_of_skipTerminator hq)
      (hp.of_moves (Moves.refl p).advance.advance.advance)
    obtain ⟨t, ts, hts, ht⟩ := exists_of_current hlet (by decide)
    obtain ⟨u, us, hus, hu⟩ := exists_of_peek hident (by decide)
    obtain ⟨v, vs, hvs, hv⟩ := exists_of_peek hassign (by decide)
    rw [tokens_advance, hus, List.tail_cons] at hvs
    have hcur : p.advance.current = u := current_of_tokens (by rw [tokens_advance, hus])
    simp only [tokens_advance, hus, hvs, List.tail_cons] at hx
    rw [hts, List.tail_cons] at hus
    rw [hcur, hts, hus, hvs]
    exact ⟨_, _, rfl, .bind ht hu hv hx, hb, tail_skipTerminator p₁⟩
  · next hret =>
    obtain ⟨⟨x, p₁⟩, h₁, h₂⟩ := Option.bind_eq_some_iff.mp h
    cases h₂
    obtain ⟨x, rfl, hx, hb⟩ := ih.expression h₁ (quiet_of_skipTerminator hq)
      (hp.of_moves (Moves.refl p).advance)
    obtain ⟨t, ts, hts, ht⟩ := exists_of_current hret (by decide)
    rw [tokens_advance, hts, List.tail_cons] at hx
    rw [hts]
    exact ⟨_, _, rfl, .ret ht hx, hb, tail_skipTerminator p₁⟩
  · obtain ⟨⟨x, p₁⟩, h₁, h₂⟩ := Option.bind_eq_some_iff.mp h
    cases h₂
    obtain ⟨x, rfl, hx, hb⟩ := ih.expression h₁ (quiet_of_skipTerminator hq) hp
    exact ⟨_, _, rfl, .expr hx, hb, tail_skipTerminator p₁⟩

end Sound

/-- **What a production reads without a report is in the grammar.** -/
theorem sound (n : Nat) : Sound n := by
  induction n with
  | zero => constructor <;> intros <;> simp_all [expression, operand, operators, extend, elements,
      moreElements, pairs, conditional, function, statements, statement]
  | succ n ih =>
    exact {
      expression := ih.expression_succ
      operand := ih.operand_succ
      operators := ih.operators_succ
      extend := ih.extend_succ
      elements := ih.elements_succ
      moreElements := ih.moreElements_succ
      pairs := ih.pairs_succ
      conditional := ih.conditional_succ
      function := ih.function_succ
      statements := ih.statements_succ
      statement := ih.statement_succ }

end Production

end ClosureLang
