import ClosureLang.Proofs.Token.Blotting
import Mathlib.Data.List.Chain

/-!
# Written lexemes are read back

The scanner takes the longest lexeme that follows. So lexemes that are written one behind the other
are read back unless one of them goes on in the next: two words, two runs of digits, or an operator
that is the first half of a longer one. A blank in between keeps any two apart.

`Lexeme.Complete` says what can be written, without the scanner, and `TokenKind.joins` which kinds
run together. Two facts tie these to the scanner. A lexeme is read back if and only if the character
behind it does not go on with it (`Lexeme.Complete.read_iff`), and the first character of another
lexeme goes on with it if and only if the kinds join (`Lexeme.Complete.goesOn_head`).

Main statement: `tokenize_writePieces_iff`, for lists of any length with any blanks around them.
-/

namespace ClosureLang

/-! ## What can be written -/

/-- The kinds of operators and delimiters, which are written as they are named. -/
def operatorKinds : List TokenKind :=
  [.assign, .equal, .bang, .notEqual, .star, .power, .plus, .minus, .slash, .less, .greater, .comma,
    .colon, .semicolon, .lparen, .rparen, .lbrace, .rbrace, .lbracket, .rbracket]

/-- The kinds of words: names and keywords. -/
def wordKinds : List TokenKind :=
  [.ident, .fnWord, .letWord, .trueWord, .falseWord, .ifWord, .elseWord, .returnWord]

/-- Lexemes that are complete, so that strings are closed. -/
inductive Lexeme.Complete : Lexeme → Prop where
  | operator {k} : k ∈ operatorKinds → Complete ⟨k, k.name.toList, k.name.toList⟩
  | word {cs} : cs ≠ [] → (∀ c ∈ cs, isLetter c = true) →
      Complete ⟨wordKind (String.ofList cs), cs, cs⟩
  | digits {cs} : cs ≠ [] → (∀ c ∈ cs, c.isDigit = true) → Complete ⟨.int, cs, cs⟩
  | string {cs} : '"' ∉ cs → Complete ⟨.string, cs, '"' :: (cs ++ ['"'])⟩
  | illegal {c} : isIllegal c = true → Complete ⟨.illegal, [c], [c]⟩

/-- Blanks, or nothing. -/
structure Gap where
  chars : List Char
  blank : ∀ c ∈ chars, isBlank c = true

/-- A lexeme and what stands before it. -/
structure Piece where
  gap : Gap
  lexeme : Lexeme
  complete : lexeme.Complete

/-- The text of some pieces and of what stands behind them. -/
def writePieces : List Piece → Gap → List Char
  | [], ending => ending.chars
  | p :: ps, ending => p.gap.chars ++ (p.lexeme.text ++ writePieces ps ending)

/-- The token of a piece that is written from an offset on. -/
def Piece.token (p : Piece) (i : Nat) : Token where
  kind := p.lexeme.kind
  literal := String.ofList p.lexeme.literal
  start := i + byteLength p.gap.chars
  stop := i + byteLength p.gap.chars + byteLength p.lexeme.text

/-- One token for each of some pieces that are written from an offset on. -/
def placePieces : Nat → List Piece → List Token
  | _, [] => []
  | i, p :: ps => p.token i :: placePieces (p.token i).stop ps

/-- Whether a token and the next one run together if nothing stands between them. -/
def TokenKind.joins : TokenKind → TokenKind → Bool
  | .int, k => k == .int
  | .assign, k => k == .assign || k == .equal
  | .bang, k => k == .assign || k == .equal
  | .star, k => k == .star || k == .power
  | j, k => wordKinds.contains j && wordKinds.contains k

/-- Nothing runs together: where two pieces join, there is a blank between them. -/
def KeptApart (ps : List Piece) : Prop :=
  ps.IsChain fun p q => q.gap.chars = [] → p.lexeme.kind.joins q.lexeme.kind = false

/-! ## What goes on with a lexeme -/

/-- Whether a character behind a token of some kind goes on with it. -/
def TokenKind.goesOn (k : TokenKind) (c : Char) : Bool :=
  match k with
  | .int => c.isDigit
  | .assign => c == '='
  | .bang => c == '='
  | .star => c == '*'
  | k => wordKinds.contains k && isLetter c

theorem goesOn_of_isBlank {c : Char} (h : isBlank c = true) (k : TokenKind) :
    k.goesOn c = false := by
  simp only [isBlank, Bool.or_eq_true, beq_iff_eq] at h
  rcases h with ((rfl | rfl) | rfl) | rfl <;> cases k <;> decide

/-- A letter goes on with words and a digit with digits. -/
theorem goesOn_of_ordinary {c : Char} (h : Ordinary c) (k : TokenKind) :
    k.goesOn c = (k == .int && c.isDigit || wordKinds.contains k && isLetter c) := by
  have hequal : (c == '=') = false := by
    rw [beq_eq_false_iff_ne]
    rintro rfl
    cases h.symbol
  have hstar : (c == '*') = false := by
    rw [beq_eq_false_iff_ne]
    rintro rfl
    cases h.symbol
  cases k <;> simp [TokenKind.goesOn, wordKinds, hequal, hstar]

theorem goesOn_of_mem_wordKinds {k : TokenKind} (h : k ∈ wordKinds) : k.goesOn = isLetter := by
  funext c
  revert h
  cases k <;> simp [wordKinds, TokenKind.goesOn]

theorem mem_wordKinds (w : String) : wordKind w ∈ wordKinds :=
  (show ∀ k ∈ _, k ∈ wordKinds by decide) _ (wordKind_mem w)

theorem joins_of_mem_wordKinds {k : TokenKind} (h : k ∈ wordKinds) (j : TokenKind) :
    j.joins k = wordKinds.contains j := by
  revert h
  cases k <;> cases j <;> decide

/-- **The first character of a lexeme goes on with a token if and only if the kinds join.** -/
theorem Lexeme.Complete.goesOn_head {l : Lexeme} (h : l.Complete) {c : Char} {cs : List Char}
    (htext : l.text = c :: cs) (k : TokenKind) : k.goesOn c = k.joins l.kind := by
  cases h with
  | @operator j hj =>
    have hall : operatorKinds.all (fun j => TokenKind.all.all fun k =>
        j.name.toList.head?.map k.goesOn == some (k.joins j)) = true := by decide +kernel
    have hjk := List.all_eq_true.mp (List.all_eq_true.mp hall j hj) k (TokenKind.mem_all k)
    rw [show j.name.toList = c :: cs from htext] at hjk
    simpa using hjk
  | word hne hletter =>
    cases htext
    have hc := hletter c List.mem_cons_self
    have hdigit : c.isDigit = false := by
      by_contra hd
      rw [isLetter_of_isDigit (by simpa using hd)] at hc
      cases hc
    rw [goesOn_of_ordinary (.of_isLetter hc), joins_of_mem_wordKinds (mem_wordKinds _), hc, hdigit]
    simp
  | digits hne hdigit =>
    cases htext
    have hc := hdigit c List.mem_cons_self
    rw [goesOn_of_ordinary (.of_isDigit hc), isLetter_of_isDigit hc, hc]
    cases k <;> rfl
  | string =>
    cases htext
    cases k <;> rfl
  | illegal hc =>
    cases htext
    simp only [isIllegal, Bool.and_eq_true, Bool.not_eq_true', List.contains_eq_mem,
      decide_eq_false_iff_not] at hc
    rw [goesOn_of_ordinary (.of_not_mem hc.1.1), hc.1.2, hc.2]
    cases k <;> rfl

/-! ## Reading a lexeme back -/

/-- How an operator is written: with one character or with two. -/
theorem text_of_mem_operatorKinds {k : TokenKind} (h : k ∈ operatorKinds) :
    (∃ c, k.name.toList = [c] ∧ symbolKind? c = some k) ∨
      ∃ c d, k.name.toList = [c, d] ∧ pairKind? c d = some k := by
  have hall : operatorKinds.all (fun k =>
      (k.name.toList.length == 1 && k.name.toList.head?.bind symbolKind? == some k) ||
        (k.name.toList.length == 2 && k.name.toList.head?.bind (fun c =>
          k.name.toList.tail.head?.bind (pairKind? c)) == some k)) = true := by decide +kernel
  have hk := List.all_eq_true.mp hall k h
  simp only [Bool.or_eq_true, Bool.and_eq_true, beq_iff_eq] at hk
  rcases hk with ⟨hlength, hsymbol⟩ | ⟨hlength, hpair⟩
  · obtain ⟨c, hc⟩ := List.length_eq_one_iff.mp hlength
    rw [hc] at hsymbol
    exact Or.inl ⟨c, hc, hsymbol⟩
  · obtain ⟨c, d, hcd⟩ := List.length_eq_two.mp hlength
    rw [hcd] at hpair
    exact Or.inr ⟨c, d, hcd, hpair⟩

/-- What goes on with an operator of one character is the second character of another. -/
theorem pairKind?_eq_none_iff {c : Char} {k : TokenKind} (h : symbolKind? c = some k) (d : Char) :
    pairKind? c d = none ↔ k.goesOn d = false := by
  constructor
  · intro hnone
    unfold symbolKind? at h
    split at h <;> cases h <;>
      first
      | rfl
      | rw [TokenKind.goesOn, beq_eq_false_iff_ne]
        rintro rfl
        cases hnone
  · intro hstop
    unfold pairKind?
    split <;> first | rfl | (cases h; cases hstop)

/-- An operator of one character is read back unless it is the first half of one of two. -/
theorem Lexeme.read_symbol_iff {c : Char} {k : TokenKind} (h : symbolKind? c = some k)
    (rest : List Char) :
    Lexeme.read c rest = (⟨k, [c], [c]⟩, rest) ↔ Avoids k.goesOn rest := by
  have hpair : rest.head?.bind (pairKind? c) = none ↔ Avoids k.goesOn rest := by
    cases rest with
    | nil => simp [Avoids]
    | cons d rest =>
      rw [avoids_cons, ← pairKind?_eq_none_iff h]
      rfl
  rw [← hpair]
  constructor
  · intro hread
    cases rest with
    | nil => rfl
    | cons d rest =>
      by_contra hsome
      obtain ⟨j, hj⟩ := Option.ne_none_iff_exists'.mp hsome
      -- what follows is one character shorter than it should be
      rw [Lexeme.read, hj] at hread
      exact List.cons_ne_self d rest (congrArg Prod.snd hread).symm
  · intro hnone
    simp only [Lexeme.read, hnone, h]

/-- A closed string is read back whatever follows it. -/
theorem Lexeme.read_string {cs : List Char} (h : '"' ∉ cs) (rest : List Char) :
    Lexeme.read '"' (cs ++ ['"'] ++ rest) = (⟨.string, cs, '"' :: (cs ++ ['"'])⟩, rest) := by
  have hinner : ∀ c ∈ cs, (c != '"') = true := by
    intro c hc
    simp only [bne_iff_ne]
    rintro rfl
    exact h hc
  have hclose : Avoids (· != '"') ('"' :: rest) := avoids_cons.mpr (by decide)
  rw [List.append_assoc, List.singleton_append, Lexeme.read_of_plain rfl, if_pos rfl,
    takeWhile_append_of_avoids hinner hclose, dropWhile_append_of_avoids hinner hclose]
  rfl

theorem avoids_of_forall {p : Char → Bool} (h : ∀ c, p c = false) (cs : List Char) : Avoids p cs :=
  fun c _ => h c

/-- **A complete lexeme is read back if and only if nothing goes on with it.** -/
theorem Lexeme.Complete.read_iff {l : Lexeme} (h : l.Complete) {c : Char} {cs : List Char}
    (htext : l.text = c :: cs) (rest : List Char) :
    Lexeme.read c (cs ++ rest) = (l, rest) ↔ Avoids l.kind.goesOn rest := by
  cases h with
  | @operator k hk =>
    have htext : k.name.toList = c :: cs := htext
    rw [htext]
    rcases text_of_mem_operatorKinds hk with ⟨d, hd, hsymbol⟩ | ⟨d, e, hde, hpair⟩
    · rw [htext] at hd
      cases hd
      exact Lexeme.read_symbol_iff hsymbol rest
    · rw [htext] at hde
      cases hde
      have hstop : ∀ f, k.goesOn f = false := by
        have hmem := pairKind?_mem hpair
        revert hmem
        cases k <;> simp [TokenKind.goesOn, wordKinds]
      refine iff_of_true ?_ (avoids_of_forall hstop rest)
      simp [Lexeme.read, hpair]
  | @word ds _ hletter =>
    cases htext
    rw [Lexeme.read_word_iff hletter rest, goesOn_of_mem_wordKinds (mem_wordKinds _)]
  | digits _ hdigit =>
    cases htext
    exact Lexeme.read_digits_iff hdigit rest
  | string hquote =>
    cases htext
    exact iff_of_true (Lexeme.read_string hquote rest) (avoids_of_forall (fun _ => rfl) rest)
  | illegal hc =>
    cases htext
    exact iff_of_true (Lexeme.read_of_isIllegal hc rest).2 (avoids_of_forall (fun _ => rfl) rest)

/-! ## Lists of lexemes -/

/-- Of the two ways to cut a text, each after as many bytes, both are the same. -/
theorem append_inj_of_byteLength {as bs cs ds : List Char} (h : as ++ bs = cs ++ ds)
    (hlength : byteLength as = byteLength cs) : as = cs ∧ bs = ds := by
  induction as generalizing cs with
  | nil =>
    cases cs with
    | nil => exact ⟨rfl, h⟩
    | cons c cs =>
      have := byteLength_pos (List.cons_ne_nil c cs)
      simp only [byteLength_nil] at hlength
      omega
  | cons a as ih =>
    cases cs with
    | nil =>
      have := byteLength_pos (List.cons_ne_nil a as)
      simp only [byteLength_nil] at hlength
      omega
    | cons c cs =>
      obtain ⟨rfl, htail⟩ := List.cons.inj h
      simp only [byteLength_cons, Nat.add_left_cancel_iff] at hlength
      obtain ⟨rfl, hbs⟩ := ih htail hlength
      exact ⟨rfl, hbs⟩

/-- A complete lexeme starts with a character that is no blank. -/
theorem Lexeme.Complete.exists_text {l : Lexeme} (h : l.Complete) :
    ∃ c cs, l.text = c :: cs ∧ isBlank c = false := by
  cases h with
  | @operator k hk =>
    have hall : operatorKinds.all (fun k => k.name.toList.head?.any (!isBlank ·)) = true := by
      decide +kernel
    have hhead := List.all_eq_true.mp hall k hk
    cases hname : k.name.toList with
    | nil =>
      rw [hname] at hhead
      cases hhead
    | cons c cs =>
      rw [hname] at hhead
      exact ⟨c, cs, rfl, by simpa using hhead⟩
  | word hne hletter =>
    obtain ⟨c, cs, rfl⟩ := List.exists_cons_of_ne_nil hne
    exact ⟨c, cs, rfl, (Ordinary.of_isLetter (hletter c List.mem_cons_self)).blank⟩
  | digits hne hdigit =>
    obtain ⟨c, cs, rfl⟩ := List.exists_cons_of_ne_nil hne
    exact ⟨c, cs, rfl, (Ordinary.of_isDigit (hdigit c List.mem_cons_self)).blank⟩
  | string => exact ⟨_, _, rfl, by decide⟩
  | illegal hc => exact ⟨_, _, rfl, (Lexeme.read_of_isIllegal hc []).1⟩

/-- What is written behind a token goes on with it if and only if the first piece joins it. -/
theorem avoids_writePieces_iff (k : TokenKind) (ps : List Piece) (ending : Gap) :
    Avoids k.goesOn (writePieces ps ending) ↔
      ∀ q ∈ ps.head?, q.gap.chars = [] → k.joins q.lexeme.kind = false := by
  have hgap : ∀ (g : Gap) c cs, g.chars = c :: cs → k.goesOn c = false := by
    intro g c cs hg
    exact goesOn_of_isBlank (g.blank c (by rw [hg]; exact List.mem_cons_self)) k
  cases ps with
  | nil =>
    refine iff_of_true ?_ (by simp)
    show Avoids k.goesOn ending.chars
    cases hchars : ending.chars with
    | nil => simp [Avoids]
    | cons c cs => exact avoids_cons.mpr (hgap ending c cs hchars)
  | cons q ps =>
    obtain ⟨c, cs, htext, -⟩ := q.complete.exists_text
    rw [writePieces]
    cases hchars : q.gap.chars with
    | nil =>
      rw [htext, List.nil_append, List.cons_append, avoids_cons, q.complete.goesOn_head htext]
      simp [hchars]
    | cons d ds =>
      refine iff_of_true (avoids_cons.mpr (hgap q.gap d ds hchars)) ?_
      simp [hchars]

/-- **A piece is read back if and only if nothing goes on with it**, and then the scanner stands
behind it. -/
theorem Piece.tokens_iff (p : Piece) (rest : List Char) (i : Nat) (finished : Bool)
    (ts : List Token) :
    (Scanner.mk (p.gap.chars ++ (p.lexeme.text ++ rest)) i finished).tokens = p.token i :: ts ↔
      Avoids p.lexeme.kind.goesOn rest ∧
        (Scanner.mk rest (p.token i).stop finished).tokens = ts := by
  obtain ⟨c, cs, htext, hc⟩ := p.complete.exists_text
  have hstart : Avoids isBlank (c :: (cs ++ rest)) := avoids_cons.mpr hc
  have hwritten : p.lexeme.text ++ rest = c :: (cs ++ rest) := by rw [htext, List.cons_append]
  have htake := takeWhile_append_of_avoids p.gap.blank hstart
  have hdrop := dropWhile_append_of_avoids p.gap.blank hstart
  rw [← p.complete.read_iff htext, hwritten, Scanner.tokens_of_cons hdrop]
  simp only [Scanner.read, htake, hdrop]
  have hsplit := Lexeme.text_append_rest c (cs ++ rest)
  generalize Lexeme.read c (cs ++ rest) = r at hsplit ⊢
  obtain ⟨⟨kind, literal, text⟩, rest'⟩ := r
  constructor
  · intro h
    obtain ⟨htoken, hts⟩ := List.cons.inj h
    obtain ⟨rfl, hliteral, -, hbytes⟩ := Token.mk.inj htoken
    obtain rfl : literal = p.lexeme.literal := by simpa using congrArg String.toList hliteral
    -- a token that covers as many bytes covers the same text
    obtain ⟨rfl, rfl⟩ := append_inj_of_byteLength (hsplit.trans hwritten.symm)
      (Nat.add_left_cancel hbytes)
    exact ⟨rfl, hts⟩
  · rintro ⟨hl, rfl⟩
    obtain ⟨hlexeme, rfl⟩ := Prod.mk.inj hl
    rw [Piece.token, ← hlexeme]

theorem tokens_writePieces_iff (ps : List Piece) (ending : Gap) (i : Nat) (finished : Bool) :
    (Scanner.mk (writePieces ps ending) i finished).tokens = placePieces i ps ↔ KeptApart ps := by
  induction ps generalizing i with
  | nil =>
    refine iff_of_true (Scanner.tokens_of_nil ?_) .nil
    show ending.chars.dropWhile isBlank = []
    have hdrop : (ending.chars ++ []).dropWhile isBlank = [] :=
      dropWhile_append_of_avoids ending.blank (by simp [Avoids])
    rwa [List.append_nil] at hdrop
  | cons p ps ih =>
    rw [writePieces, placePieces, p.tokens_iff, avoids_writePieces_iff, ih]
    unfold KeptApart
    rw [List.isChain_cons]

/-- **Scanning is maximal munch and undoes writing.** Lexemes are written one behind the other, with
any blanks around them. They are read back, each as one token of its kind with its literal and the
bytes where it stands, if and only if no two that join stand together without a blank. -/
theorem tokenize_writePieces_iff (ps : List Piece) (ending : Gap) :
    tokenize (String.ofList (writePieces ps ending)) =
        placePieces 0 ps ++ [Token.ending (byteLength (writePieces ps ending))] ↔
      KeptApart ps := by
  have hstop : (Scanner.ofString (String.ofList (writePieces ps ending))).stop =
      byteLength (writePieces ps ending) := by
    simp [Scanner.stop, Scanner.ofString]
  rw [← tokens_writePieces_iff ps ending 0 false, ← hstop]
  show _ ++ _ = _ ↔ _
  rw [List.append_left_inj]
  simp [Scanner.ofString]

end ClosureLang
