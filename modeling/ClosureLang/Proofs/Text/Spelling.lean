import ClosureLang.Proofs.Parse.Grammar
import ClosureLang.Proofs.Token.Reading
import ClosureLang.Proofs.Tree.Shape

/-!
# Trees as words

`Expr.words` writes a tree as words, with an operation and an index in parentheses and a block in
braces, and `Expr.derives` is that tokens which say these words derive the tree. Since there are
parentheses around all that has a level, every tree is derived at the tightest one.
-/

namespace ClosureLang

open Grammar

/-- The word of a unary operator. -/
def UnaryOp.word : UnaryOp → Word
  | negate => delimiter .minus
  | not => delimiter .bang

/-- The word of a binary operator. -/
def BinaryOp.word : BinaryOp → Word
  | add => delimiter .plus
  | sub => delimiter .minus
  | less => delimiter .less
  | greater => delimiter .greater
  | equal => delimiter .equal
  | notEqual => delimiter .notEqual
  | mul => delimiter .star
  | div => delimiter .slash
  | power => delimiter .power

/-- Words with commas between them. -/
def commaSeparated (wss : List (List Word)) : List Word := [delimiter .comma].intercalate wss

variable {τ : Type}

mutual

/-- The words of an expression. -/
def Expr.words : Expr τ → List Word
  | .name n => [(.ident, n)]
  | .int k => [(.int, k.toInt.repr)]
  | .text s => [(.string, s)]
  | .bool true => [(.trueWord, "true")]
  | .bool false => [(.falseWord, "false")]
  | .array items =>
    delimiter .lbracket :: (commaSeparated (wordsOfExprs items) ++ [delimiter .rbracket])
  | .hash pairs =>
    delimiter .lbrace :: (commaSeparated (wordsOfPairs pairs) ++ [delimiter .rbrace])
  | .unary op x => delimiter .lparen :: op.word :: (x.words ++ [delimiter .rparen])
  | .binary op x y =>
    delimiter .lparen :: (x.words ++ op.word :: (y.words ++ [delimiter .rparen]))
  | .cond c yes none =>
    (.ifWord, "if") :: (c.words ++ delimiter .lbrace :: (wordsOfBlock yes ++ [delimiter .rbrace]))
  | .cond c yes (some no) =>
    (.ifWord, "if") :: (c.words ++ delimiter .lbrace :: (wordsOfBlock yes ++ delimiter .rbrace ::
      (.elseWord, "else") :: delimiter .lbrace :: (wordsOfBlock no ++ [delimiter .rbrace])))
  | .fn _ params body =>
    (.fnWord, "fn") :: delimiter .lparen :: (commaSeparated (params.map fun n => [(.ident, n)]) ++
      delimiter .rparen :: delimiter .lbrace :: (wordsOfBlock body ++ [delimiter .rbrace]))
  | .call f args =>
    f.words ++ delimiter .lparen :: (commaSeparated (wordsOfExprs args) ++ [delimiter .rparen])
  | .index x i =>
    delimiter .lparen :: (x.words ++ delimiter .lbracket :: (i.words ++
      [delimiter .rbracket, delimiter .rparen]))

/-- The words of each of some expressions. -/
def wordsOfExprs : List (Expr τ) → List (List Word)
  | [] => []
  | x :: xs => x.words :: wordsOfExprs xs

/-- The words of each of the pairs of a hash literal. -/
def wordsOfPairs : List (Expr τ × Expr τ) → List (List Word)
  | [] => []
  | (k, v) :: ps => (k.words ++ delimiter .colon :: v.words) :: wordsOfPairs ps

/-- The words of a block, with a semicolon after every statement. -/
def wordsOfBlock : List (Stmt τ) → List Word
  | [] => []
  | s :: b => s.words ++ delimiter .semicolon :: wordsOfBlock b

/-- The words of a statement, without a semicolon. -/
def Stmt.words : Stmt τ → List Word
  | .bind n x => (.letWord, "let") :: (.ident, n) :: delimiter .assign :: x.words
  | .ret x => (.returnWord, "return") :: x.words
  | .expr x => x.words

end

/-! ## Words with commas between them -/

@[simp] theorem commaSeparated_singleton (ws : List Word) : commaSeparated [ws] = ws :=
  List.intercalate_singleton

@[simp] theorem commaSeparated_cons_cons (ws vs : List Word) (wss : List (List Word)) :
    commaSeparated (ws :: vs :: wss) =
      ws ++ delimiter .comma :: commaSeparated (vs :: wss) := by
  simp [commaSeparated, List.intercalate_cons_cons]

/-! ## Derivations -/

theorem UnaryOp.mem_unaryOperators (op : UnaryOp) : (op.word.1, op) ∈ unaryOperators := by
  cases op <;> decide

/-- The level of a binary operator. -/
theorem BinaryOp.exists_level (op : BinaryOp) :
    ∃ l m, tighter? l = some m ∧ (op.word.1, op) ∈ binaryOperators l := by
  cases op
  case equal => exact ⟨.equality, .comparison, rfl, by decide⟩
  case notEqual => exact ⟨.equality, .comparison, rfl, by decide⟩
  case less => exact ⟨.comparison, .sum, rfl, by decide⟩
  case greater => exact ⟨.comparison, .sum, rfl, by decide⟩
  case add => exact ⟨.sum, .product, rfl, by decide⟩
  case sub => exact ⟨.sum, .product, rfl, by decide⟩
  case mul => exact ⟨.product, .unary, rfl, by decide⟩
  case div => exact ⟨.product, .unary, rfl, by decide⟩
  case power => exact ⟨.product, .unary, rfl, by decide⟩

/-- The digits of a number that is not negative write that number. -/
theorem ofDigitChars_repr {k : Int64} (h : 0 ≤ k.toInt) :
    k.toInt = (Nat.ofDigitChars 10 k.toInt.repr.toList 0 : Int) := by
  obtain ⟨n, hn⟩ := Int.eq_ofNat_of_zero_le h
  rw [hn]
  simp [Int.repr, Nat.repr]

/-- What binds tightest is an expression on its own. -/
theorem Grammar.Expression.alone {ts rest : List Token} {x : Expr Unit}
    (h : Expression .call ts x rest) : Expression .equality ts x rest :=
  h.loosen (by decide)

theorem rank_le_call (l : Precedence) : l.rank ≤ Precedence.call.rank := by
  cases l <;> decide

theorem equality_le_of_mem {l : Precedence} {k : TokenKind} {op : BinaryOp}
    (h : (k, op) ∈ binaryOperators l) : Precedence.equality.rank ≤ l.rank := by
  cases l
  case lowest => cases h
  all_goals decide

/-- Something in parentheses. -/
theorem group_of_words {ts us rest : List Token} {x : Expr Unit} {t : Token} (ht : t.kind = .lparen)
    (hx : Expression .equality ts x us) (h : Says us [delimiter .rparen] rest) :
    Expression .call (t :: ts) x rest := by
  obtain ⟨u, rfl, hu⟩ := h.last
  exact .primary (.group ht hx hu)

/-- The words of parameters, with commas between them, are parameters of the grammar. -/
theorem names_of_words : ∀ (n : String) (ns : List String) {ts rest : List Token},
    Says ts (commaSeparated ((n :: ns).map fun n => [(.ident, n)])) rest →
    Names ts (n :: ns) rest := by
  intro n ns
  induction ns generalizing n with
  | nil =>
    intro ts rest h
    rw [List.map_singleton, commaSeparated_singleton] at h
    obtain ⟨t, us, rfl, ht, rfl, hnil⟩ := h.cons
    rw [hnil.nil]
    exact .one ht
  | cons m ns ih =>
    intro ts rest h
    rw [List.map_cons, List.map_cons, commaSeparated_cons_cons] at h
    obtain ⟨t, us, rfl, ht, rfl, hmore⟩ := h.cons
    obtain ⟨c, vs, rfl, hc, hns⟩ := hmore.delimiter
    exact .more ht hc (ih m hns)

theorem parameters_of_words {ns : List String} {ts rest : List Token} {t : Token}
    (h : Says ts (commaSeparated (ns.map fun n => [(.ident, n)])) (t :: rest))
    (ht : t.kind = .rparen) : Parameters ts ns rest := by
  cases ns with
  | nil =>
    rw [h.nil]
    exact .empty ht
  | cons n ns => exact .filled (names_of_words n ns h) ht

/-- No elements, or some with commas between them, and what closes them. -/
theorem elements_of {xs : List (Expr Unit)} {ts rest : List Token} {t : Token} {close : TokenKind}
    (h : xs = [] ∧ ts = t :: rest ∨ Expressions ts xs (t :: rest)) (ht : t.kind = close) :
    Elements close ts xs rest := by
  rcases h with ⟨rfl, rfl⟩ | h
  · exact .empty ht
  · exact .filled h ht

/-- No pairs, or some with commas between them, and the brace that closes them. -/
theorem entries_of {ps : List (Expr Unit × Expr Unit)} {ts rest : List Token} {t : Token}
    (h : ps = [] ∧ ts = t :: rest ∨ Pairs ts ps (t :: rest)) (ht : t.kind = .rbrace) :
    Entries ts ps rest := by
  rcases h with ⟨rfl, rfl⟩ | h
  · exact .empty ht
  · exact .filled h ht

mutual

/-- **Tokens that say the words of a well-formed tree derive it.** -/
theorem Expr.derives : ∀ (x : Expr Unit) {ts rest : List Token}, x.wellFormed = true →
    Says ts x.words rest → Expression .call ts x rest
  | .name n, ts, rest, _, h => by
    obtain ⟨t, us, rfl, ht, rfl, hnil⟩ := h.cons
    rw [hnil.nil]
    exact .primary (.name ht)
  | .int k, ts, rest, hx, h => by
    obtain ⟨t, us, rfl, ht, hlit, h⟩ := h.cons
    rw [h.nil]
    refine .primary (.int ht ?_)
    rw [hlit]
    exact ofDigitChars_repr (by simpa [Expr.wellFormed] using hx)
  | .text s, ts, rest, _, h => by
    obtain ⟨t, us, rfl, ht, rfl, hnil⟩ := h.cons
    rw [hnil.nil]
    exact .primary (.text ht)
  | .bool true, ts, rest, _, h => by
    obtain ⟨t, us, rfl, ht, _, h⟩ := h.cons
    rw [h.nil]
    exact .primary (.yes ht)
  | .bool false, ts, rest, _, h => by
    obtain ⟨t, us, rfl, ht, _, h⟩ := h.cons
    rw [h.nil]
    exact .primary (.no ht)
  | .array items, ts, rest, hx, h => by
    obtain ⟨t, us, rfl, ht, h⟩ := h.delimiter
    obtain ⟨vs, hitems, h⟩ := h.append
    obtain ⟨u, rfl, hu⟩ := h.last
    exact .primary (.array ht (elements_of (exprs_derive items hx hitems) hu))
  | .hash pairs, ts, rest, hx, h => by
    obtain ⟨t, us, rfl, ht, h⟩ := h.delimiter
    obtain ⟨vs, hpairs, h⟩ := h.append
    obtain ⟨u, rfl, hu⟩ := h.last
    exact .primary (.hash ht (entries_of (pairs_derive pairs hx hpairs) hu))
  | .unary op x, ts, rest, hx, h => by
    obtain ⟨t, us, rfl, ht, h⟩ := h.delimiter
    obtain ⟨o, vs, rfl, ho, _, h⟩ := h.cons
    obtain ⟨ws, hx', h⟩ := h.append
    have hop : (o.kind, op) ∈ unaryOperators := ho ▸ op.mem_unaryOperators
    have hunary := Expression.unary hop ((x.derives hx hx').loosen (by decide))
    exact group_of_words ht (hunary.loosen (by decide)) h
  | .binary op x y, ts, rest, hx, h => by
    simp only [Expr.wellFormed, Bool.and_eq_true] at hx
    obtain ⟨t, us, rfl, ht, h⟩ := h.delimiter
    obtain ⟨vs, hx', h⟩ := h.append
    obtain ⟨o, ws, rfl, ho, _, h⟩ := h.cons
    obtain ⟨ws', hy', h⟩ := h.append
    obtain ⟨l, m, hlm, hop⟩ := op.exists_level
    -- the operands bind tightest, so they fit at the level of any operator
    have hmem : (o.kind, op) ∈ binaryOperators l := ho ▸ hop
    have hbinary := Expression.binary hlm hmem ((x.derives hx.1 hx').loosen (rank_le_call l))
      ((y.derives hx.2 hy').loosen (rank_le_call m))
    exact group_of_words ht (hbinary.loosen (equality_le_of_mem hmem)) h
  | .cond c yes none, ts, rest, hx, h => by
    simp only [Expr.wellFormed, Bool.and_eq_true] at hx
    obtain ⟨t, us, rfl, ht, _, h⟩ := h.cons
    obtain ⟨vs, hc, h⟩ := h.append
    obtain ⟨o, ws, rfl, ho, h⟩ := h.delimiter
    obtain ⟨ws', hyes, h⟩ := h.append
    obtain ⟨u, rfl, hu⟩ := h.last
    exact .primary (.cond ht (c.derives hx.1.1 hc).alone
      (.closed ho (block_derives yes hx.1.2 hyes) hu))
  | .cond c yes (some no), ts, rest, hx, h => by
    simp only [Expr.wellFormed, Bool.and_eq_true] at hx
    obtain ⟨t, us, rfl, ht, _, h⟩ := h.cons
    obtain ⟨vs, hc, h⟩ := h.append
    obtain ⟨o, ws, rfl, ho, h⟩ := h.delimiter
    obtain ⟨ws₁, hyes, h⟩ := h.append
    obtain ⟨u, ws₂, rfl, hu, h⟩ := h.delimiter
    obtain ⟨e, ws₃, rfl, he, _, h⟩ := h.cons
    obtain ⟨o', ws₄, rfl, ho', h⟩ := h.delimiter
    obtain ⟨ws₅, hno, h⟩ := h.append
    obtain ⟨u', rfl, hu'⟩ := h.last
    exact .primary (.condElse ht (c.derives hx.1.1 hc).alone
      (.closed ho (block_derives yes hx.1.2 hyes) hu) he
      (.closed ho' (block_derives no hx.2 hno) hu'))
  | .fn tag params body, ts, rest, hx, h => by
    simp only [Expr.wellFormed, Bool.and_eq_true] at hx
    obtain ⟨t, us, rfl, ht, _, h⟩ := h.cons
    obtain ⟨o, vs, rfl, ho, h⟩ := h.delimiter
    obtain ⟨ws, hparams, h⟩ := h.append
    obtain ⟨c, ws₁, rfl, hc, h⟩ := h.delimiter
    obtain ⟨b, ws₂, rfl, hb, h⟩ := h.delimiter
    obtain ⟨ws₃, hbody, h⟩ := h.append
    obtain ⟨u, rfl, hu⟩ := h.last
    exact .primary (.fn ht ho (parameters_of_words hparams hc)
      (.closed hb (block_derives body hx.2 hbody) hu))
  | .call f args, ts, rest, hx, h => by
    simp only [Expr.wellFormed, Bool.and_eq_true] at hx
    obtain ⟨us, hf, h⟩ := h.append
    obtain ⟨o, vs, rfl, ho, h⟩ := h.delimiter
    obtain ⟨ws, hargs, h⟩ := h.append
    obtain ⟨u, rfl, hu⟩ := h.last
    exact .call (f.derives hx.1 hf) ho (elements_of (exprs_derive args hx.2 hargs) hu)
  | .index x i, ts, rest, hx, h => by
    simp only [Expr.wellFormed, Bool.and_eq_true] at hx
    obtain ⟨t, us, rfl, ht, h⟩ := h.delimiter
    obtain ⟨vs, hx', h⟩ := h.append
    obtain ⟨o, ws, rfl, ho, h⟩ := h.delimiter
    obtain ⟨ws', hi, h⟩ := h.append
    obtain ⟨u, ws₁, rfl, hu, h⟩ := h.delimiter
    exact group_of_words ht (Expression.alone
      (.index (x.derives hx.1 hx') ho (i.derives hx.2 hi).alone hu)) h

theorem exprs_derive : ∀ (xs : List (Expr Unit)) {ts rest : List Token},
    wellFormedExprs xs = true → Says ts (commaSeparated (wordsOfExprs xs)) rest →
    xs = [] ∧ ts = rest ∨ Expressions ts xs rest
  | [], ts, rest, _, h => Or.inl ⟨rfl, h.nil⟩
  | [x], ts, rest, hxs, h => by
    simp only [wellFormedExprs, Bool.and_eq_true] at hxs
    simp only [wordsOfExprs, commaSeparated_singleton] at h
    exact Or.inr (.one (x.derives hxs.1 h).alone)
  | x :: y :: xs, ts, rest, hxs, h => by
    rw [wellFormedExprs, Bool.and_eq_true] at hxs
    simp only [wordsOfExprs, commaSeparated_cons_cons] at h
    obtain ⟨us, hx, h⟩ := h.append
    obtain ⟨c, vs, rfl, hc, h⟩ := h.delimiter
    have hmore := (exprs_derive (y :: xs) hxs.2 h).resolve_left (by simp)
    exact Or.inr (.more (x.derives hxs.1 hx).alone hc hmore)

theorem pairs_derive : ∀ (ps : List (Expr Unit × Expr Unit)) {ts rest : List Token},
    wellFormedPairs ps = true → Says ts (commaSeparated (wordsOfPairs ps)) rest →
    ps = [] ∧ ts = rest ∨ Pairs ts ps rest
  | [], ts, rest, _, h => Or.inl ⟨rfl, h.nil⟩
  | [(k, v)], ts, rest, hps, h => by
    simp only [wellFormedPairs, Bool.and_eq_true] at hps
    simp only [wordsOfPairs, commaSeparated_singleton] at h
    obtain ⟨us, hk, h⟩ := h.append
    obtain ⟨c, vs, rfl, hc, h⟩ := h.delimiter
    exact Or.inr (.one (k.derives hps.1.1 hk).alone hc (v.derives hps.1.2 h).alone)
  | (k, v) :: (l, w) :: ps, ts, rest, hps, h => by
    rw [wellFormedPairs, Bool.and_eq_true, Bool.and_eq_true] at hps
    simp only [wordsOfPairs, commaSeparated_cons_cons, List.append_assoc, List.cons_append] at h
    obtain ⟨us, hk, h⟩ := h.append
    obtain ⟨c, vs, rfl, hc, h⟩ := h.delimiter
    obtain ⟨ws, hv, h⟩ := h.append
    obtain ⟨d, ws', rfl, hd, h⟩ := h.delimiter
    have hmore := (pairs_derive ((l, w) :: ps) hps.2 h).resolve_left (by simp)
    exact Or.inr (.more (k.derives hps.1.1 hk).alone hc (v.derives hps.1.2 hv).alone hd hmore)

theorem block_derives : ∀ (b : List (Stmt Unit)) {ts rest : List Token},
    wellFormedBlock b = true → Says ts (wordsOfBlock b) rest → Statements ts b rest
  | [], ts, rest, _, h => by
    rw [h.nil]
    exact .nil
  | s :: b, ts, rest, hb, h => by
    simp only [wellFormedBlock, Bool.and_eq_true] at hb
    obtain ⟨us, hs, h⟩ := h.append
    obtain ⟨u, vs, rfl, hu, h⟩ := h.delimiter
    exact .ended (s.derives hb.1 hs) hu (block_derives b hb.2 h)

/-- The words of a statement derive it. -/
theorem Stmt.derives : ∀ (s : Stmt Unit) {ts rest : List Token}, s.wellFormed = true →
    Says ts s.words rest → Statement ts s rest
  | .bind n x, ts, rest, hs, h => by
    simp only [Stmt.wellFormed, Bool.and_eq_true] at hs
    obtain ⟨t, us, rfl, ht, _, h₁⟩ := h.cons
    obtain ⟨u, vs, rfl, hu, rfl, h₂⟩ := h₁.cons
    obtain ⟨v, ws, rfl, hv, h₃⟩ := h₂.delimiter
    exact .bind ht hu hv (x.derives hs.2 h₃).alone
  | .ret x, ts, rest, hs, h => by
    obtain ⟨t, us, rfl, ht, _, h⟩ := h.cons
    exact .ret ht (x.derives hs h).alone
  | .expr x, ts, rest, hs, h => .expr (x.derives hs h).alone

end

end ClosureLang
