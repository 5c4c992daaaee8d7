import ClosureLang.Proofs.Parse.WellFormed
import ClosureLang.Proofs.Text.RoundTrip

/-!
# Every well-formed program can be written

The canonical text of a program leaves out quotes and braces, so it does not always read back. Here
a program is written as its words (`ClosureLang.Proofs.Text.Spelling`), strings in quotes, with a
blank behind every word. The blanks keep words apart, so the text scans as these words
(`scans_spell`), and the words derive the program.

Main statement: `parser_reaches_wellFormed`. What the parser can return is exactly the well-formed
programs.
-/

namespace ClosureLang

/-! ## Words as texts -/

/-- The characters of a word. -/
def spellWord : Word → List Char
  | (.string, s) => '"' :: (s.toList ++ ['"'])
  | (_, s) => s.toList

/-- The characters of some words, with a blank behind each. -/
def spell : List Word → List Char
  | [] => []
  | w :: ws => spellWord w ++ ' ' :: spell ws

/-- A word that is read back if a blank follows it. -/
def ReadsBack (w : Word) : Prop := ∀ rest, Scans (spellWord w ++ ' ' :: rest) [w] (' ' :: rest)

/-- Words that are written with a blank behind each are scanned one by one, each up to its blank. -/
theorem scans_spell {ws : List Word} (h : ∀ w ∈ ws, ReadsBack w) : Scans (spell ws) ws [] := by
  induction ws with
  | nil => exact .refl []
  | cons w ws ih =>
    rw [List.forall_mem_cons] at h
    exact (h.1 _).trans (.blank rfl (ih h.2))

/-! ## Words of each class -/

/-- A blank stops what it is no part of. -/
theorem avoids_blank (p : Char → Bool) (h : p ' ' = false) (rest : List Char) :
    Avoids p (' ' :: rest) :=
  avoids_cons.mpr h

theorem readsBack_name {n : String} (h : isName n = true) : ReadsBack (.ident, n) :=
  fun rest => Scans.name h (avoids_blank isLetter (by decide) rest)

theorem readsBack_int {k : Int64} (h : 0 ≤ k.toInt) : ReadsBack (.int, k.toInt.repr) :=
  fun rest => Scans.integer h (avoids_blank Char.isDigit (by decide) rest)

/-- A string without a quote in it ends at the closing quote. -/
theorem readsBack_text {s : String} (h : s.toList.all (· != '"') = true) :
    ReadsBack (.string, s) := by
  intro rest
  have hinner : ∀ c ∈ s.toList, (c != '"') = true := List.all_eq_true.mp h
  have hclose : Avoids (· != '"') ('"' :: ' ' :: rest) := avoids_cons.mpr (by decide)
  have hlexeme := Scans.lexeme (c := '"') (by decide) (s.toList ++ '"' :: ' ' :: rest)
  rw [Lexeme.read_of_plain (by decide), if_pos rfl, takeWhile_append_of_avoids hinner hclose,
    dropWhile_append_of_avoids hinner hclose, String.ofList_toList] at hlexeme
  simpa [spellWord] using hlexeme

/-- The keywords. -/
def keywords : List String := ["fn", "let", "true", "false", "if", "else", "return"]

/-- A keyword is read back as the kind of its own. -/
theorem readsBack_keyword {w : String} (h : w ∈ keywords) : ReadsBack (wordKind w, w) := by
  have hall : keywords.all (fun w => !w.toList.isEmpty && w.toList.all isLetter &&
      spellWord (wordKind w, w) == w.toList) = true := by decide
  have hw := List.all_eq_true.mp hall w h
  simp only [Bool.and_eq_true, Bool.not_eq_true', List.isEmpty_eq_false_iff, beq_iff_eq] at hw
  intro rest
  rw [hw.2]
  exact Scans.string hw.1.1 hw.1.2 (avoids_blank isLetter (by decide) rest)

/-- A delimiter is one character, which is read as it stands. -/
theorem readsBack_delimiter {k : TokenKind} (h : k ∈ delimiterChars.map Prod.snd) :
    ReadsBack (delimiter k) := by
  obtain ⟨⟨c, k⟩, hc, rfl⟩ := List.mem_map.mp h
  have hall : ∀ e ∈ delimiterChars, spellWord (delimiter e.2) = [e.1] := by decide
  intro rest
  rw [hall _ hc]
  exact Scans.delimiter hc _

theorem readsBack_assign : ReadsBack (delimiter .assign) :=
  fun _ => Scans.symbol (by decide) rfl rfl

theorem readsBack_unary (op : UnaryOp) : ReadsBack op.word := by
  intro rest
  have hspell : spellWord op.word = op.symbol.toList := by cases op <;> rfl
  rw [hspell]
  exact op.scans (avoids_blank _ (by decide) rest)

theorem readsBack_binary (op : BinaryOp) : ReadsBack op.word := by
  intro rest
  have hspell : spellWord op.word = op.symbol.toList := by cases op <;> rfl
  rw [hspell]
  exact op.scans rest

/-! ## The words of a tree -/

/-- The commas between expressions are read back as well. -/
theorem forall_mem_commaSeparated {wss : List (List Word)}
    (h : ∀ ws ∈ wss, ∀ w ∈ ws, ReadsBack w) : ∀ w ∈ commaSeparated wss, ReadsBack w := by
  induction wss with
  | nil => simp [commaSeparated]
  | cons ws wss ih =>
    rw [List.forall_mem_cons] at h
    cases wss with
    | nil => simpa using h.1
    | cons vs wss =>
      rw [commaSeparated_cons_cons, List.forall_mem_append, List.forall_mem_cons]
      exact ⟨h.1, readsBack_delimiter (by decide), ih h.2⟩

variable {τ : Type}

mutual

/-- **Every word of a well-formed expression is read back.** -/
theorem Expr.words_readBack : ∀ x : Expr τ, x.wellFormed = true → ∀ w ∈ x.words, ReadsBack w
  | .name n, h => List.forall_mem_singleton.mpr (readsBack_name h)
  | .int k, h => List.forall_mem_singleton.mpr (readsBack_int (by simpa [Expr.wellFormed] using h))
  | .text s, h => List.forall_mem_singleton.mpr (readsBack_text h)
  | .bool true, _ => List.forall_mem_singleton.mpr (readsBack_keyword (w := "true") (by decide))
  | .bool false, _ => List.forall_mem_singleton.mpr (readsBack_keyword (w := "false") (by decide))
  | .array items, h => by
    simp only [Expr.words, List.forall_mem_cons, List.forall_mem_append]
    exact ⟨readsBack_delimiter (by decide),
      forall_mem_commaSeparated (exprs_words_readBack items h),
      readsBack_delimiter (by decide), by simp⟩
  | .hash pairs, h => by
    simp only [Expr.words, List.forall_mem_cons, List.forall_mem_append]
    exact ⟨readsBack_delimiter (by decide),
      forall_mem_commaSeparated (pairs_words_readBack pairs h),
      readsBack_delimiter (by decide), by simp⟩
  | .unary op x, h => by
    simp only [Expr.words, List.forall_mem_cons, List.forall_mem_append]
    exact ⟨readsBack_delimiter (by decide), readsBack_unary op, x.words_readBack h,
      readsBack_delimiter (by decide), by simp⟩
  | .binary op x y, h => by
    simp only [Expr.wellFormed, Bool.and_eq_true] at h
    simp only [Expr.words, List.forall_mem_cons, List.forall_mem_append]
    exact ⟨readsBack_delimiter (by decide), x.words_readBack h.1, readsBack_binary op,
      y.words_readBack h.2, readsBack_delimiter (by decide), by simp⟩
  | .cond c yes none, h => by
    simp only [Expr.wellFormed, Bool.and_eq_true] at h
    simp only [Expr.words, List.forall_mem_cons, List.forall_mem_append]
    exact ⟨readsBack_keyword (w := "if") (by decide), c.words_readBack h.1.1,
      readsBack_delimiter (by decide), block_words_readBack yes h.1.2,
      readsBack_delimiter (by decide), by simp⟩
  | .cond c yes (some no), h => by
    simp only [Expr.wellFormed, Bool.and_eq_true] at h
    simp only [Expr.words, List.forall_mem_cons, List.forall_mem_append]
    exact ⟨readsBack_keyword (w := "if") (by decide), c.words_readBack h.1.1,
      readsBack_delimiter (by decide), block_words_readBack yes h.1.2,
      readsBack_delimiter (by decide), readsBack_keyword (w := "else") (by decide),
      readsBack_delimiter (by decide), block_words_readBack no h.2,
      readsBack_delimiter (by decide), by simp⟩
  | .fn _ params body, h => by
    simp only [Expr.wellFormed, Bool.and_eq_true] at h
    have hparams : ∀ ws ∈ params.map fun n => [((.ident, n) : Word)], ∀ w ∈ ws, ReadsBack w := by
      intro ws hws w hw
      obtain ⟨n, hn, rfl⟩ := List.mem_map.mp hws
      rw [List.mem_singleton.mp hw]
      exact readsBack_name (List.all_eq_true.mp h.1 n hn)
    simp only [Expr.words, List.forall_mem_cons, List.forall_mem_append]
    exact ⟨readsBack_keyword (w := "fn") (by decide), readsBack_delimiter (by decide),
      forall_mem_commaSeparated hparams, readsBack_delimiter (by decide),
      readsBack_delimiter (by decide), block_words_readBack body h.2,
      readsBack_delimiter (by decide), by simp⟩
  | .call f args, h => by
    simp only [Expr.wellFormed, Bool.and_eq_true] at h
    simp only [Expr.words, List.forall_mem_cons, List.forall_mem_append]
    exact ⟨f.words_readBack h.1, readsBack_delimiter (by decide),
      forall_mem_commaSeparated (exprs_words_readBack args h.2),
      readsBack_delimiter (by decide), by simp⟩
  | .index x i, h => by
    simp only [Expr.wellFormed, Bool.and_eq_true] at h
    simp only [Expr.words, List.forall_mem_cons, List.forall_mem_append]
    exact ⟨readsBack_delimiter (by decide), x.words_readBack h.1, readsBack_delimiter (by decide),
      i.words_readBack h.2, readsBack_delimiter (by decide), readsBack_delimiter (by decide),
      by simp⟩

theorem exprs_words_readBack : ∀ xs : List (Expr τ), wellFormedExprs xs = true →
    ∀ ws ∈ wordsOfExprs xs, ∀ w ∈ ws, ReadsBack w
  | [], _ => by simp [wordsOfExprs]
  | x :: xs, h => by
    simp only [wellFormedExprs, Bool.and_eq_true] at h
    rw [wordsOfExprs, List.forall_mem_cons]
    exact ⟨x.words_readBack h.1, exprs_words_readBack xs h.2⟩

theorem pairs_words_readBack : ∀ ps : List (Expr τ × Expr τ), wellFormedPairs ps = true →
    ∀ ws ∈ wordsOfPairs ps, ∀ w ∈ ws, ReadsBack w
  | [], _ => by simp [wordsOfPairs]
  | (k, v) :: ps, h => by
    simp only [wellFormedPairs, Bool.and_eq_true] at h
    rw [wordsOfPairs, List.forall_mem_cons, List.forall_mem_append, List.forall_mem_cons]
    exact ⟨⟨k.words_readBack h.1.1, readsBack_delimiter (by decide), v.words_readBack h.1.2⟩,
      pairs_words_readBack ps h.2⟩

theorem block_words_readBack : ∀ b : List (Stmt τ), wellFormedBlock b = true →
    ∀ w ∈ wordsOfBlock b, ReadsBack w
  | [], _ => by simp [wordsOfBlock]
  | s :: b, h => by
    simp only [wellFormedBlock, Bool.and_eq_true] at h
    rw [wordsOfBlock, List.forall_mem_append, List.forall_mem_cons]
    exact ⟨s.words_readBack h.1, readsBack_delimiter (by decide), block_words_readBack b h.2⟩

theorem Stmt.words_readBack : ∀ s : Stmt τ, s.wellFormed = true → ∀ w ∈ s.words, ReadsBack w
  | .bind n x, h => by
    simp only [Stmt.wellFormed, Bool.and_eq_true] at h
    rw [Stmt.words, List.forall_mem_cons, List.forall_mem_cons, List.forall_mem_cons]
    exact ⟨readsBack_keyword (w := "let") (by decide), readsBack_name h.1, readsBack_assign,
      x.words_readBack h.2⟩
  | .ret x, h => List.forall_mem_cons.mpr
      ⟨readsBack_keyword (w := "return") (by decide), x.words_readBack h⟩
  | .expr x, h => x.words_readBack h

end

/-! ## Programs -/

/-- A text of a program: its words, with a blank behind each. -/
def Program.written (p : Program τ) : String := String.ofList (spell (wordsOfBlock p))

theorem parse_written {p : Program Unit} (hwf : wellFormedBlock p = true) :
    (parse (Program.written p)).program = p ∧ (parse (Program.written p)).diagnostics = [] := by
  obtain ⟨offset, hwords⟩ := scans_spell (block_words_readBack p hwf) 0 false
  rw [Scanner.tokens_of_nil (s := ⟨[], offset, false⟩) rfl] at hwords
  have htokens : (tokenize (Program.written p)).dropLast =
      Scanner.tokens ⟨spell (wordsOfBlock p), 0, false⟩ := by
    rw [dropLast_tokenize, Scanner.ofString, Program.written, String.toList_ofList]
  exact (parse_of_program (htokens ▸ block_derives p hwf hwords)).symm

/-- **The parser returns exactly the well-formed programs.** What it returns is well formed for every
source, with or without diagnostics, and every well-formed program is what it returns, without
diagnostics, for the text that `Program.written` gives. -/
theorem parser_reaches_wellFormed :
    (∀ source, wellFormedBlock (parse source).program = true) ∧
      ∀ p : Program Unit, wellFormedBlock p = true →
        (parse (Program.written p)).program = p ∧ (parse (Program.written p)).diagnostics = [] :=
  ⟨wellFormed_program, fun _ hwf => parse_written hwf⟩

end ClosureLang
