/-!
# Tokens

A token is one lexeme of a source text: its kind, its literal and the bytes that it covers.
Offsets count bytes of the UTF-8 form of the source.
-/

namespace ClosureLang

/-- The kinds of tokens. `eof` stands for the end of the source and `illegal` for a character that
starts no lexeme. -/
inductive TokenKind where
  | illegal | eof | ident | int | string
  | assign | plus | minus | bang | star | power | slash
  | equal | notEqual | greater | less
  | comma | colon | semicolon
  | lparen | rparen | lbrace | rbrace | lbracket | rbracket
  | fnWord | letWord | trueWord | falseWord | ifWord | elseWord | returnWord
  deriving DecidableEq, Repr, Inhabited

namespace TokenKind

/-- The name of a kind in messages. Operators and delimiters are named by their own text. -/
def name : TokenKind → String
  | illegal => "ILLEGAL"
  | eof => "EOF"
  | ident => "IDENT"
  | int => "INT"
  | string => "STRING"
  | assign => "="
  | plus => "+"
  | minus => "-"
  | bang => "!"
  | star => "*"
  | power => "**"
  | slash => "/"
  | equal => "=="
  | notEqual => "!="
  | greater => ">"
  | less => "<"
  | comma => ","
  | colon => ":"
  | semicolon => ";"
  | lparen => "("
  | rparen => ")"
  | lbrace => "\x7b"
  | rbrace => "\x7d"
  | lbracket => "["
  | rbracket => "]"
  | fnWord => "FUNC"
  | letWord => "LET"
  | trueWord => "TRUE"
  | falseWord => "FALSE"
  | ifWord => "IF"
  | elseWord => "ELSE"
  | returnWord => "RETURN"

/-- Every kind once. -/
def all : List TokenKind :=
  [illegal, eof, ident, int, string, assign, plus, minus, bang, star, power, slash, equal, notEqual,
    greater, less, comma, colon, semicolon, lparen, rparen, lbrace, rbrace, lbracket, rbracket,
    fnWord, letWord, trueWord, falseWord, ifWord, elseWord, returnWord]

theorem mem_all (k : TokenKind) : k ∈ all := by cases k <;> decide

/-- The kind with a given name. -/
def ofName? (s : String) : Option TokenKind := all.find? (·.name == s)

end TokenKind

/-- One token. `literal` is the text of the lexeme, for a string the text between the quotes; the
lexeme covers the bytes from `start` up to but not including `stop`. -/
structure Token where
  kind : TokenKind
  literal : String
  start : Nat
  stop : Nat
  deriving DecidableEq, Repr, Inhabited

/-- The token that ends a source of `length` bytes. -/
def Token.ending (length : Nat) : Token := ⟨.eof, "", length, length⟩

@[simp] theorem Token.ending_kind (n : Nat) : (Token.ending n).kind = .eof := rfl

end ClosureLang
