import ClosureLang.Token.Basic

/-!
# The scanner

`Scanner.read` skips blanks and reads the longest lexeme that follows. A source that is used up
gives its ending token again and again; `Scanner.next?` gives it once and then stops.

## Termination

`Scanner.tokens` reads until the source is used up. Each lexeme has at least one character, so the
characters left become fewer (`length_after_lt`).
-/

namespace ClosureLang

/-! ## Classes of characters -/

/-- The characters that may stand between tokens: space, tab, line feed, carriage return. -/
def isBlank (c : Char) : Bool := c == ' ' || c == '\t' || c == '\n' || c == '\r'

/-- The characters of words: ASCII letters and the underscore. -/
def isLetter (c : Char) : Bool := c.isAlpha || c == '_'

/-- Operators of two characters. -/
def pairKind? : Char → Char → Option TokenKind
  | '=', '=' => some .equal
  | '!', '=' => some .notEqual
  | '*', '*' => some .power
  | _, _ => none

/-- Operators and delimiters of one character. -/
def symbolKind? : Char → Option TokenKind
  | '=' => some .assign
  | '!' => some .bang
  | '*' => some .star
  | '+' => some .plus
  | '-' => some .minus
  | '/' => some .slash
  | '<' => some .less
  | '>' => some .greater
  | ',' => some .comma
  | ':' => some .colon
  | ';' => some .semicolon
  | '(' => some .lparen
  | ')' => some .rparen
  | '{' => some .lbrace
  | '}' => some .rbrace
  | '[' => some .lbracket
  | ']' => some .rbracket
  | _ => none

/-- The kind of a word: a keyword or an identifier. -/
def wordKind : String → TokenKind
  | "fn" => .fnWord
  | "let" => .letWord
  | "true" => .trueWord
  | "false" => .falseWord
  | "if" => .ifWord
  | "else" => .elseWord
  | "return" => .returnWord
  | _ => .ident

/-- How many bytes some characters take in UTF-8. -/
def byteLength : List Char → Nat
  | [] => 0
  | c :: cs => c.utf8Size + byteLength cs

@[simp] theorem byteLength_nil : byteLength [] = 0 := rfl

@[simp] theorem byteLength_cons (c : Char) (cs : List Char) :
    byteLength (c :: cs) = c.utf8Size + byteLength cs := rfl

@[simp] theorem byteLength_append (cs ds : List Char) :
    byteLength (cs ++ ds) = byteLength cs + byteLength ds := by
  induction cs with
  | nil => simp
  | cons c cs ih => simp [ih, Nat.add_assoc]

/-! ## Lexemes -/

/-- A token before it is placed: its kind, its literal and the characters that it covers. -/
structure Lexeme where
  kind : TokenKind
  literal : List Char
  text : List Char

/-- The longest lexeme that starts with `c`, and what follows it.

An operator of two characters goes before one of one character. A string runs to the next quote
or, if there is none, to the end of the source. -/
def Lexeme.read (c : Char) (cs : List Char) : Lexeme × List Char :=
  match cs.head?.bind (pairKind? c) with
  | some kind => (⟨kind, c :: cs.take 1, c :: cs.take 1⟩, cs.drop 1)
  | none =>
    match symbolKind? c with
    | some kind => (⟨kind, [c], [c]⟩, cs)
    | none =>
      if c = '"' then
        let inner := cs.takeWhile (· != '"')
        let rest := cs.dropWhile (· != '"')
        (⟨.string, inner, c :: (inner ++ rest.take 1)⟩, rest.drop 1)
      else if isLetter c then
        let word := c :: cs.takeWhile isLetter
        (⟨wordKind (String.ofList word), word, word⟩, cs.dropWhile isLetter)
      else if c.isDigit then
        let digits := c :: cs.takeWhile Char.isDigit
        (⟨.int, digits, digits⟩, cs.dropWhile Char.isDigit)
      else (⟨.illegal, [c], [c]⟩, cs)

/-- A lexeme and what follows it are the characters it was read from. -/
theorem Lexeme.text_append_rest (c : Char) (cs : List Char) :
    (Lexeme.read c cs).1.text ++ (Lexeme.read c cs).2 = c :: cs := by
  unfold Lexeme.read
  split
  · exact congrArg (c :: ·) (List.take_append_drop 1 cs)
  · split
    · rfl
    · split
      · simp only [List.cons_append, List.append_assoc, List.take_append_drop,
          List.takeWhile_append_dropWhile]
      · split
        · exact congrArg (c :: ·) List.takeWhile_append_dropWhile
        · split
          · exact congrArg (c :: ·) List.takeWhile_append_dropWhile
          · rfl

/-- A lexeme has at least the character it starts with. -/
theorem Lexeme.text_eq_cons (c : Char) (cs : List Char) :
    ∃ t, (Lexeme.read c cs).1.text = c :: t := by
  unfold Lexeme.read
  split
  · exact ⟨_, rfl⟩
  · split
    · exact ⟨_, rfl⟩
    · split
      · exact ⟨_, rfl⟩
      · split
        · exact ⟨_, rfl⟩
        · split <;> exact ⟨_, rfl⟩

/-- What follows a lexeme is not longer than what followed its first character. -/
theorem Lexeme.length_rest_le (c : Char) (cs : List Char) :
    (Lexeme.read c cs).2.length ≤ cs.length := by
  obtain ⟨t, ht⟩ := Lexeme.text_eq_cons c cs
  have h := congrArg List.length (Lexeme.text_append_rest c cs)
  simp only [ht, List.length_append, List.length_cons] at h
  omega

/-! ## Reading tokens -/

/-- A place in a source: the characters that are left, the offset of the first of them, and whether
`Scanner.next?` has already given the ending token. -/
structure Scanner where
  rest : List Char
  offset : Nat := 0
  finished : Bool := false

namespace Scanner

/-- The scanner at the beginning of a source. -/
def ofString (source : String) : Scanner := ⟨source.toList, 0, false⟩

/-- Reads the next token. At the end this is the ending token, again and again. -/
def read (s : Scanner) : Token × Scanner :=
  let start := s.offset + byteLength (s.rest.takeWhile isBlank)
  match s.rest.dropWhile isBlank with
  | [] => (Token.ending start, { s with rest := [], offset := start })
  | c :: cs =>
    let (lexeme, rest) := Lexeme.read c cs
    let stop := start + byteLength lexeme.text
    (⟨lexeme.kind, String.ofList lexeme.literal, start, stop⟩,
      { s with rest := rest, offset := stop })

/-- Reads the next token unless the ending token has been given. -/
def next? (s : Scanner) : Option (Token × Scanner) :=
  if s.finished then none
  else
    let (token, s) := s.read
    some (token, { s with finished := token.kind == .eof })

/-- After a token that is not the ending one fewer characters are left. -/
theorem length_after_lt {s : Scanner} {c : Char} {cs : List Char}
    (h : s.rest.dropWhile isBlank = c :: cs) : s.read.2.rest.length < s.rest.length := by
  have h1 := (List.dropWhile_sublist isBlank (l := s.rest)).length_le
  have h2 := Lexeme.length_rest_le c cs
  have h3 : s.read.2.rest = (Lexeme.read c cs).2 := by simp [read, h]
  rw [h] at h1
  rw [h3]
  simp only [List.length_cons] at h1
  omega

/-- The tokens from here on, the ending token left out. -/
def tokens (s : Scanner) : List Token :=
  match _h : s.rest.dropWhile isBlank with
  | [] => []
  | _ :: _ => s.read.1 :: tokens s.read.2
termination_by s.rest.length
decreasing_by exact length_after_lt _h

/-- The offset at which the source ends. -/
def stop (s : Scanner) : Nat := s.offset + byteLength s.rest

/-- All that `next?` still gives: the tokens from here on with the ending token last, or nothing if
that has been given. -/
def remaining (s : Scanner) : List Token :=
  if s.finished then [] else s.tokens ++ [Token.ending s.stop]

/-- The scanner once `next?` has given all. -/
def drained (s : Scanner) : Scanner :=
  if s.finished then s else ⟨[], s.stop, true⟩

end Scanner

/-- All tokens of a source, the ending token last. -/
def tokenize (source : String) : List Token := (Scanner.ofString source).remaining

end ClosureLang
