import ClosureLang.Proofs.Parse.Exact
import ClosureLang.Proofs.Text.Spelling
import ClosureLang.Tree.Text

/-!
# Canonical text reads back to its tree

The canonical text of a plain tree scans as the words of the tree (`Expr.scans_render`), and tokens
that say these words derive the tree (`Expr.derives`), so the parser gives the tree back.

The text is put together from pieces, and two pieces that meet must not scan as one. Wherever an
expression ends, a character follows that is no letter and no digit (`Seam`); an operator of two
characters comes about only between blanks.
-/

namespace ClosureLang

open Grammar

variable {τ : Type}

/-! ## Seams -/

/-- Neither a word nor a number goes on with what follows. -/
structure Seam (rest : List Char) : Prop where
  letter : Avoids isLetter rest
  digit : Avoids Char.isDigit rest

theorem Seam.nil : Seam [] := ⟨by simp [Avoids], by simp [Avoids]⟩

theorem Seam.special {c : Char} (hc : c ∈ specialChars) (rest : List Char) : Seam (c :: rest) := by
  have hclass := isLetter_isDigit_of_special hc
  exact ⟨avoids_cons.mpr hclass.1, avoids_cons.mpr hclass.2⟩

/-! ## Words of one class -/

theorem isName_iff {n : String} : isName n = true ↔
    n.toList ≠ [] ∧ n.toList.all isLetter = true ∧ wordKind n = .ident := by
  simp [isName, and_assoc]

/-- The text of a number that is not negative is its digits. -/
theorem exists_toList_repr {k : Int64} (hk : 0 ≤ k.toInt) :
    ∃ n, k.toInt.repr.toList = Nat.toDigits 10 n := by
  obtain ⟨n, hn⟩ := Int.eq_ofNat_of_zero_le hk
  exact ⟨n, by simp [hn, Int.repr]⟩

theorem toList_repr_ne_nil {k : Int64} (hk : 0 ≤ k.toInt) : k.toInt.repr.toList ≠ [] := by
  obtain ⟨n, hn⟩ := exists_toList_repr hk
  rw [hn]
  exact Nat.toDigits_ne_nil

theorem isDigit_of_mem_repr {k : Int64} (hk : 0 ≤ k.toInt) {c : Char}
    (hc : c ∈ k.toInt.repr.toList) : c.isDigit = true := by
  obtain ⟨n, hn⟩ := exists_toList_repr hk
  rw [hn] at hc
  exact Nat.isDigit_of_mem_toDigits (by decide) (by decide) hc

/-- Delimiters and operators that are not the first character of a longer operator. -/
def delimiterChars : List (Char × TokenKind) :=
  [('(', .lparen), (')', .rparen), ('[', .lbracket), (']', .rbracket), ('{', .lbrace),
    ('}', .rbrace), (',', .comma), (':', .colon), (';', .semicolon), ('+', .plus), ('-', .minus),
    ('/', .slash), ('<', .less), ('>', .greater)]

namespace Scans

variable {cs rest : List Char}

theorem delimiter {c : Char} {k : TokenKind} (h : (c, k) ∈ delimiterChars) (cs : List Char) :
    Scans (c :: cs) [ClosureLang.delimiter k] cs := by
  have hall : ∀ e ∈ delimiterChars, isBlank e.1 = false ∧ symbolKind? e.1 = some e.2 ∧
      e.1 ∉ ['=', '!', '*'] ∧ e.2.name = String.ofList [e.1] := by decide
  obtain ⟨hblank, hsymbol, hfirst, hname⟩ := hall _ h
  simp only [List.mem_cons, List.not_mem_nil, or_false, not_or] at hfirst
  have hpair : cs.head?.bind (pairKind? c) = none := by
    cases cs with
    | nil => rfl
    | cons d cs => simp [pairKind?, hfirst]
  rw [ClosureLang.delimiter, hname]
  exact Scans.symbol hblank hpair hsymbol

/-- A delimiter, and what follows it. -/
theorem first {c : Char} {k : TokenKind} {ws : List Word} (hc : (c, k) ∈ delimiterChars)
    (h : Scans cs ws rest) : Scans (c :: cs) (ClosureLang.delimiter k :: ws) rest :=
  (Scans.delimiter hc cs).trans h

/-- Something that ends at a seam, the delimiter that makes the seam, and what follows it. -/
theorem upTo {c : Char} {k : TokenKind} {ds : List Char} {ws vs : List Word}
    (hc : (c, k) ∈ delimiterChars) (hcs : Seam (c :: ds) → Scans cs ws (c :: ds))
    (h : Scans ds vs rest) : Scans cs (ws ++ ClosureLang.delimiter k :: vs) rest := by
  have hall : ∀ e ∈ delimiterChars, e.1 ∈ specialChars := by decide
  exact (hcs (.special (hall _ hc) ds)).trans (first hc h)

/-- A keyword or a name. -/
theorem string {w : String} (hne : w.toList ≠ []) (hw : w.toList.all isLetter = true)
    (hrest : Avoids isLetter rest) : Scans (w.toList ++ rest) [(wordKind w, w)] rest := by
  have h := Scans.word hne (List.all_eq_true.mp hw) hrest
  rwa [String.ofList_toList] at h

/-- A name is scanned as one word if no letter follows. -/
theorem name {n : String} (hn : isName n = true) (hrest : Avoids isLetter rest) :
    Scans (n.toList ++ rest) [(.ident, n)] rest := by
  obtain ⟨hne, hletter, hkind⟩ := isName_iff.mp hn
  have h := Scans.string hne hletter hrest
  rwa [hkind] at h

theorem integer {k : Int64} (hk : 0 ≤ k.toInt) (hrest : Avoids Char.isDigit rest) :
    Scans (k.toInt.repr.toList ++ rest) [(.int, k.toInt.repr)] rest := by
  have h := Scans.digits (toList_repr_ne_nil hk) (fun c hc => isDigit_of_mem_repr hk hc) hrest
  rwa [String.ofList_toList] at h

end Scans

theorem UnaryOp.scans (op : UnaryOp) {cs : List Char} (h : Avoids (· == '=') cs) :
    Scans (op.symbol.toList ++ cs) [op.word] cs := by
  cases op with
  | negate => exact Scans.delimiter (c := '-') (by decide) cs
  | not =>
    refine Scans.symbol (c := '!') (by decide) ?_ rfl
    cases cs with
    | nil => rfl
    | cons d cs =>
      have hd : d ≠ '=' := by simpa [avoids_cons] using h
      simp [pairKind?, hd]

/-- An operator between blanks. -/
theorem BinaryOp.scans (op : BinaryOp) (cs : List Char) :
    Scans (op.symbol.toList ++ ' ' :: cs) [op.word] (' ' :: cs) := by
  cases op
  case add => exact Scans.delimiter (c := '+') (by decide) _
  case sub => exact Scans.delimiter (c := '-') (by decide) _
  case less => exact Scans.delimiter (c := '<') (by decide) _
  case greater => exact Scans.delimiter (c := '>') (by decide) _
  case div => exact Scans.delimiter (c := '/') (by decide) _
  case mul => exact Scans.symbol (c := '*') (by decide) rfl rfl
  case equal => exact Scans.pair (c := '=') (d := '=') (by decide) rfl
  case notEqual => exact Scans.pair (c := '!') (d := '=') (by decide) rfl
  case power => exact Scans.pair (c := '*') (d := '*') (by decide) rfl

/-! ## Scanning canonical text -/

theorem avoids_of_ordinary {cs rest : List Char} (hne : cs ≠ []) (h : ∀ c ∈ cs, Ordinary c) :
    Avoids (· == '=') (cs ++ rest) := by
  obtain ⟨c, cs, rfl⟩ := List.exists_cons_of_ne_nil hne
  rw [List.cons_append, avoids_cons, beq_eq_false_iff_ne]
  rintro rfl
  exact absurd (h '=' List.mem_cons_self).symbol (by decide)

/-- The text of an expression does not start with an equals sign, so a bang in front of it stays a
bang. -/
theorem Expr.avoids_render : ∀ (x : Expr τ) {rest : List Char}, x.wellFormed = true →
    x.plain = true → Avoids (· == '=') (x.render.toList ++ rest)
  | .name n, rest, hx, _ => by
    have hn := isName_iff.mp hx
    exact avoids_of_ordinary hn.1 fun c hc => .of_isLetter (List.all_eq_true.mp hn.2.1 c hc)
  | .int k, rest, hx, _ => by
    have hk : 0 ≤ k.toInt := by simpa [Expr.wellFormed] using hx
    exact avoids_of_ordinary (toList_repr_ne_nil hk) fun c hc =>
      .of_isDigit (isDigit_of_mem_repr hk hc)
  | .bool true, rest, _, _ => by simp [Expr.render, avoids_cons]
  | .bool false, rest, _, _ => by simp [Expr.render, avoids_cons]
  | .array _, rest, _, _ => by simp [Expr.render, avoids_cons]
  | .hash _, rest, _, _ => by simp [Expr.render, avoids_cons]
  | .unary _ _, rest, _, _ => by simp [Expr.render, avoids_cons]
  | .binary _ _ _, rest, _, _ => by simp [Expr.render, avoids_cons]
  | .index _ _, rest, _, _ => by simp [Expr.render, avoids_cons]
  | .call f args, rest, hx, hp => by
    simp only [Expr.wellFormed, Expr.plain, Bool.and_eq_true] at hx hp
    simp only [Expr.render, String.toList_append, List.append_assoc]
    exact f.avoids_render hx.1 hp.1

mutual

/-- **The canonical text of a plain expression scans as the words of the expression.** -/
theorem Expr.scans_render : ∀ (x : Expr τ) {rest : List Char}, x.wellFormed = true →
    x.plain = true → Seam rest → Scans (x.render.toList ++ rest) x.words rest
  | .name n, rest, hx, _, hrest => Scans.name hx hrest.letter
  | .int k, rest, hx, _, hrest => Scans.integer (by simpa [Expr.wellFormed] using hx) hrest.digit
  | .bool true, rest, _, _, hrest => Scans.string (w := "true") (by decide) (by decide) hrest.letter
  | .bool false, rest, _, _, hrest =>
    Scans.string (w := "false") (by decide) (by decide) hrest.letter
  | .array items, rest, hx, hp, _ => by
    have htext : (Expr.array items).render.toList ++ rest =
        '[' :: ((", ".intercalate (renderExprs items)).toList ++ ']' :: rest) := by
      simp [Expr.render]
    rw [htext]
    exact .first (by decide) (.upTo (by decide) (exprs_scan_render items hx hp) (.refl _))
  | .hash pairs, rest, hx, hp, _ => by
    have htext : (Expr.hash pairs).render.toList ++ rest =
        '{' :: ((", ".intercalate (renderPairs pairs)).toList ++ '}' :: rest) := by
      simp [Expr.render]
    rw [htext]
    exact .first (by decide) (.upTo (by decide) (pairs_scan_render pairs hx hp) (.refl _))
  | .unary op x, rest, hx, hp, _ => by
    have htext : (Expr.unary op x).render.toList ++ rest =
        '(' :: (op.symbol.toList ++ (x.render.toList ++ ')' :: rest)) := by
      simp [Expr.render]
    rw [htext]
    exact .first (by decide) ((op.scans (x.avoids_render hx hp)).trans
      (.upTo (by decide) (x.scans_render hx hp) (.refl _)))
  | .binary op x y, rest, hx, hp, _ => by
    simp only [Expr.wellFormed, Expr.plain, Bool.and_eq_true] at hx hp
    have htext : (Expr.binary op x y).render.toList ++ rest =
        '(' :: (x.render.toList ++ ' ' :: (op.symbol.toList ++ ' ' :: (y.render.toList ++
          ')' :: rest))) := by
      simp [Expr.render]
    rw [htext]
    exact .first (by decide) ((x.scans_render hx.1 hp.1 (.special (by decide) _)).trans
      (.blank rfl ((op.scans _).trans
        (.blank rfl (.upTo (by decide) (y.scans_render hx.2 hp.2) (.refl _))))))
  | .call f args, rest, hx, hp, _ => by
    simp only [Expr.wellFormed, Expr.plain, Bool.and_eq_true] at hx hp
    have htext : (Expr.call f args).render.toList ++ rest =
        f.render.toList ++ '(' :: ((", ".intercalate (renderExprs args)).toList ++
          ')' :: rest) := by
      simp [Expr.render]
    rw [htext]
    exact .upTo (by decide) (f.scans_render hx.1 hp.1)
      (.upTo (by decide) (exprs_scan_render args hx.2 hp.2) (.refl _))
  | .index x i, rest, hx, hp, _ => by
    simp only [Expr.wellFormed, Expr.plain, Bool.and_eq_true] at hx hp
    have htext : (Expr.index x i).render.toList ++ rest =
        '(' :: (x.render.toList ++ '[' :: (i.render.toList ++ ']' :: ')' :: rest)) := by
      simp [Expr.render]
    rw [htext]
    exact .first (by decide) (.upTo (by decide) (x.scans_render hx.1 hp.1)
      (.upTo (by decide) (i.scans_render hx.2 hp.2) (Scans.delimiter (by decide) _)))

theorem exprs_scan_render : ∀ (xs : List (Expr τ)) {rest : List Char}, wellFormedExprs xs = true →
    plainExprs xs = true → Seam rest →
    Scans ((", ".intercalate (renderExprs xs)).toList ++ rest)
      (commaSeparated (wordsOfExprs xs)) rest
  | [], rest, _, _, _ => Scans.refl rest
  | [x], rest, hxs, hp, hrest => by
    simp only [wellFormedExprs, plainExprs, Bool.and_eq_true] at hxs hp
    simp only [renderExprs, wordsOfExprs, String.intercalate_singleton, commaSeparated_singleton]
    exact x.scans_render hxs.1 hp.1 hrest
  | x :: y :: xs, rest, hxs, hp, hrest => by
    rw [wellFormedExprs, Bool.and_eq_true] at hxs
    rw [plainExprs, Bool.and_eq_true] at hp
    have htext : (", ".intercalate (renderExprs (x :: y :: xs))).toList ++ rest =
        x.render.toList ++ ',' :: ' ' ::
          ((", ".intercalate (renderExprs (y :: xs))).toList ++ rest) := by
      simp [renderExprs, String.intercalate_cons_cons]
    rw [htext, wordsOfExprs, wordsOfExprs, commaSeparated_cons_cons, ← wordsOfExprs]
    exact .upTo (by decide) (x.scans_render hxs.1 hp.1)
      (.blank rfl (exprs_scan_render (y :: xs) hxs.2 hp.2 hrest))

theorem pairs_scan_render : ∀ (ps : List (Expr τ × Expr τ)) {rest : List Char},
    wellFormedPairs ps = true → plainPairs ps = true → Seam rest →
    Scans ((", ".intercalate (renderPairs ps)).toList ++ rest)
      (commaSeparated (wordsOfPairs ps)) rest
  | [], rest, _, _, _ => Scans.refl rest
  | [(k, v)], rest, hps, hp, hrest => by
    simp only [wellFormedPairs, plainPairs, Bool.and_eq_true] at hps hp
    have htext : (", ".intercalate (renderPairs [(k, v)])).toList ++ rest =
        k.render.toList ++ ':' :: (v.render.toList ++ rest) := by
      simp [renderPairs]
    rw [htext, wordsOfPairs, wordsOfPairs, commaSeparated_singleton]
    exact .upTo (by decide) (k.scans_render hps.1.1 hp.1.1) (v.scans_render hps.1.2 hp.1.2 hrest)
  | (k, v) :: (l, w) :: ps, rest, hps, hp, hrest => by
    rw [wellFormedPairs, Bool.and_eq_true, Bool.and_eq_true] at hps
    rw [plainPairs, Bool.and_eq_true, Bool.and_eq_true] at hp
    have htext : (", ".intercalate (renderPairs ((k, v) :: (l, w) :: ps))).toList ++ rest =
        k.render.toList ++ ':' :: (v.render.toList ++ ',' :: ' ' ::
          ((", ".intercalate (renderPairs ((l, w) :: ps))).toList ++ rest)) := by
      simp [renderPairs, String.intercalate_cons_cons]
    have hwords : commaSeparated (wordsOfPairs ((k, v) :: (l, w) :: ps)) =
        k.words ++ delimiter .colon :: (v.words ++ delimiter .comma ::
          commaSeparated (wordsOfPairs ((l, w) :: ps))) := by
      simp [wordsOfPairs]
    rw [htext, hwords]
    exact .upTo (by decide) (k.scans_render hps.1.1 hp.1.1)
      (.upTo (by decide) (v.scans_render hps.1.2 hp.1.2)
        (.blank rfl (pairs_scan_render ((l, w) :: ps) hps.2 hp.2 hrest)))

end

/-! ## Statements and programs -/

/-- Whether the canonical text of a statement ends with a semicolon. -/
def Stmt.ends : Stmt τ → Bool
  | .bind _ _ => true
  | .ret _ => true
  | .expr _ => false

theorem Stmt.scans_render {s : Stmt τ} {rest : List Char} (hs : s.wellFormed = true)
    (hp : s.plain = true) (hend : s.ends = true) :
    Scans (s.render.toList ++ rest) (s.words ++ [delimiter .semicolon]) rest := by
  cases s with
  | bind n x =>
    simp only [Stmt.wellFormed, Bool.and_eq_true] at hs
    have htext : (Stmt.bind n x).render.toList ++ rest =
        "let".toList ++ ' ' :: (n.toList ++ ' ' :: '=' :: ' ' ::
          (x.render.toList ++ ';' :: rest)) := by
      simp [Stmt.render]
    rw [htext]
    exact (Scans.string (by decide) (by decide) (Seam.special (by decide) _).letter).trans
      (.blank rfl ((Scans.name hs.1 (Seam.special (by decide) _).letter).trans
        (.blank rfl ((Scans.symbol (by decide) rfl rfl).trans
          (.blank rfl (.upTo (by decide) (x.scans_render hs.2 hp) (.refl _)))))))
  | ret x =>
    have htext : (Stmt.ret x).render.toList ++ rest =
        "return".toList ++ ' ' :: (x.render.toList ++ ';' :: rest) := by
      simp [Stmt.render]
    rw [htext]
    exact (Scans.string (by decide) (by decide) (Seam.special (by decide) _).letter).trans
      (.blank rfl (.upTo (by decide) (x.scans_render hs hp) (.refl _)))
  | expr x => cases hend

/-- The canonical text of a program scans as words from which the program derives. Only the last
statement can lack a semicolon, so no two statements run into each other. -/
theorem block_scans_render : ∀ (b : List (Stmt Unit)), wellFormedBlock b = true →
    (∀ s ∈ b, s.plain = true) → (∀ s ∈ b.dropLast, s.ends = true) →
    ∃ ws, Scans (renderBlock b).toList ws [] ∧ ∀ {ts}, Says ts ws [] → Statements ts b [] := by
  intro b hb hp hend
  induction b with
  | nil =>
    refine ⟨[], Scans.refl [], fun h => ?_⟩
    rw [h.nil]
    exact .nil
  | cons s b ih =>
    rw [wellFormedBlock, Bool.and_eq_true] at hb
    rw [List.forall_mem_cons] at hp
    rw [renderBlock, String.toList_append]
    by_cases hs : s.ends = true
    · -- its text ends with a semicolon, so what follows does not matter
      have hrest : ∀ s ∈ b.dropLast, s.ends = true := by
        intro t ht
        refine hend t ?_
        rw [List.dropLast_cons_of_ne_nil (by rintro rfl; cases ht)]
        exact List.mem_cons_of_mem s ht
      obtain ⟨ws, hscan, hderive⟩ := ih hb.2 hp.2 hrest
      refine ⟨_, (Stmt.scans_render hb.1 hp.1 hs).trans hscan, fun h => ?_⟩
      rw [List.append_assoc] at h
      obtain ⟨us, hws, h⟩ := h.append
      obtain ⟨u, vs, rfl, hu, h⟩ := h.delimiter
      exact .ended (s.derives hb.1 hws) hu (hderive h)
    · -- a statement without a semicolon is the last one
      have hlast : b = [] := by
        cases b with
        | nil => rfl
        | cons t b => exact absurd (hend s List.mem_cons_self) hs
      subst hlast
      cases s with
      | bind n x => exact absurd rfl hs
      | ret x => exact absurd rfl hs
      | expr x =>
        exact ⟨x.words, x.scans_render hb.1 hp.1 .nil,
          fun h => .unended (.expr (x.derives hb.1 h).alone) (fun hne => absurd rfl hne) .nil⟩

/-- **Canonical text reads back to the program that it shows.** The program is plain, and every
statement but the last is a `let` or a `return`. -/
theorem parse_render (p : Program Unit) (hwf : wellFormedBlock p = true)
    (hplain : ∀ s ∈ p, s.plain = true) (hend : ∀ s ∈ p.dropLast, s.ends = true) :
    (parse (Program.render p)).program = p ∧ (parse (Program.render p)).diagnostics = [] := by
  obtain ⟨ws, hscan, hderive⟩ := block_scans_render p hwf hplain hend
  obtain ⟨offset, hws⟩ := hscan 0 false
  rw [Scanner.tokens_of_nil (s := ⟨[], offset, false⟩) rfl] at hws
  have htokens : (tokenize (Program.render p)).dropLast =
      Scanner.tokens ⟨(renderBlock p).toList, 0, false⟩ := dropLast_tokenize _
  exact (parse_of_program (htokens ▸ hderive hws)).symm

/-- A program with every plain construct in it, calls of a call and of an index among them. -/
def nestedPlain : Program Unit :=
  [.bind "total" (.binary .add (.int 1) (.binary .power
      (.index (.array [.int 2, .bool true]) (.int 0))
      (.unary .negate (.call (.call (.name "f") []) [.hash [(.name "k", .int 9223372036854775807),
        (.bool false, .array [])], .unary .not (.unary .not (.name "_"))])))),
    .ret (.binary .notEqual (.name "total") (.hash [])),
    .expr (.call (.index (.name "handlers") (.int 0)) [.binary .equal (.name "a") (.name "b")])]

theorem parse_render_nestedPlain : wellFormedBlock nestedPlain = true ∧
    (parse (Program.render nestedPlain)).program = nestedPlain ∧
    (parse (Program.render nestedPlain)).diagnostics = [] :=
  ⟨by decide, parse_render nestedPlain (by decide) (by decide) (by decide)⟩

end ClosureLang
