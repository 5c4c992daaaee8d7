import ClosureLang.Token.Scanner
import Mathlib.Logic.Basic

/-!
# Reading tokens one at a time

`Scanner.tokens` is a recursion on the characters that are left. These are its two cases, and what
they give at once: the token that ends a source is not among its tokens, and `tokenize` puts it
behind them.

A word is what a token says, without the place where it stands. `Scans cs ws rest` is that the
characters `cs` begin with the words `ws`, whatever the offset, and that `rest` follows these. The
lemmas about it are one for each class of lexemes; a word and digits end where no character of
theirs follows.
-/

namespace ClosureLang

/-! ## Lexemes -/

theorem pairKind?_mem {c d : Char} {k : TokenKind} (h : pairKind? c d = some k) :
    k ∈ [TokenKind.equal, .notEqual, .power] := by
  unfold pairKind? at h
  split at h <;> cases h <;> decide

theorem symbolKind?_mem {c : Char} {k : TokenKind} (h : symbolKind? c = some k) :
    k ∈ [TokenKind.assign, .bang, .star, .plus, .minus, .slash, .less, .greater, .comma, .colon,
      .semicolon, .lparen, .rparen, .lbrace, .rbrace, .lbracket, .rbracket] := by
  unfold symbolKind? at h
  split at h <;> cases h <;> decide

theorem wordKind_mem (w : String) :
    wordKind w ∈ [TokenKind.fnWord, .letWord, .trueWord, .falseWord, .ifWord, .elseWord,
      .returnWord, .ident] := by
  unfold wordKind
  split <;> decide

/-- The lexemes that start with a character, and what follows each of them. -/
inductive Lexeme.Reads (c : Char) (cs : List Char) : Lexeme × List Char → Prop where
  | pair {d ds k} : cs = d :: ds → pairKind? c d = some k → Reads c cs (⟨k, [c, d], [c, d]⟩, ds)
  | symbol {k} : cs.head?.bind (pairKind? c) = none → symbolKind? c = some k →
      Reads c cs (⟨k, [c], [c]⟩, cs)
  | string : c = '"' →
      Reads c cs (⟨.string, cs.takeWhile (· != '"'),
        c :: (cs.takeWhile (· != '"') ++ (cs.dropWhile (· != '"')).take 1)⟩,
        (cs.dropWhile (· != '"')).drop 1)
  | word : isLetter c = true →
      Reads c cs (⟨wordKind (String.ofList (c :: cs.takeWhile isLetter)),
        c :: cs.takeWhile isLetter, c :: cs.takeWhile isLetter⟩, cs.dropWhile isLetter)
  | digits : c.isDigit = true →
      Reads c cs (⟨.int, c :: cs.takeWhile Char.isDigit, c :: cs.takeWhile Char.isDigit⟩,
        cs.dropWhile Char.isDigit)
  | illegal : symbolKind? c = none → c ≠ '"' → isLetter c = false → c.isDigit = false →
      Reads c cs (⟨.illegal, [c], [c]⟩, cs)

/-- Every lexeme that is read is one of these. -/
theorem Lexeme.reads (c : Char) (cs : List Char) : Reads c cs (Lexeme.read c cs) := by
  unfold Lexeme.read
  split
  · next hpair =>
    obtain ⟨d, hd, hk⟩ := Option.bind_eq_some_iff.mp hpair
    obtain ⟨ds, rfl⟩ := List.head?_eq_some_iff.mp hd
    exact .pair rfl hk
  · next hpair =>
    split
    · next hsymbol => exact .symbol hpair hsymbol
    · next hsymbol =>
      split
      · next hquote => exact .string hquote
      · next hquote =>
        split
        · next hletter => exact .word hletter
        · next hletter =>
          split
          · next hdigit => exact .digits hdigit
          · next hdigit =>
            exact .illegal hsymbol hquote (by simpa using hletter) (by simpa using hdigit)

/-- No lexeme is of the kind that stands for the end. -/
theorem Lexeme.kind_ne_eof (c : Char) (cs : List Char) : (Lexeme.read c cs).1.kind ≠ .eof := by
  have h := Lexeme.reads c cs
  generalize Lexeme.read c cs = r at h
  cases h with
  | pair _ hk => exact ne_of_mem_of_not_mem (pairKind?_mem hk) (by decide)
  | symbol _ hk => exact ne_of_mem_of_not_mem (symbolKind?_mem hk) (by decide)
  | word => exact ne_of_mem_of_not_mem (wordKind_mem _) (by decide)
  | _ => exact TokenKind.noConfusion

namespace Scanner

theorem tokens_of_nil {s : Scanner} (h : s.rest.dropWhile isBlank = []) : s.tokens = [] := by
  rw [tokens]
  split
  · rfl
  · next hc => rw [h] at hc; cases hc

theorem tokens_of_cons {s : Scanner} {c : Char} {cs : List Char}
    (h : s.rest.dropWhile isBlank = c :: cs) : s.tokens = s.read.1 :: s.read.2.tokens := by
  rw [tokens]
  split
  · next hn => rw [h] at hn; cases hn
  · rfl

theorem kind_read_ne_eof {s : Scanner} {c : Char} {cs : List Char}
    (h : s.rest.dropWhile isBlank = c :: cs) : s.read.1.kind ≠ .eof := by
  simp only [read, h]
  exact Lexeme.kind_ne_eof c cs

/-- The token that ends a source is not among its tokens. -/
theorem kind_ne_eof_of_mem {s : Scanner} {t : Token} (ht : t ∈ s.tokens) : t.kind ≠ .eof := by
  induction s using tokens.induct with
  | case1 s h =>
    rw [tokens_of_nil h] at ht
    cases ht
  | case2 s c cs h ih =>
    rw [tokens_of_cons h] at ht
    rcases List.mem_cons.mp ht with rfl | ht
    · exact kind_read_ne_eof h
    · exact ih ht

end Scanner

/-- The token that ends a source is the last of all tokens. -/
theorem dropLast_tokenize (source : String) :
    (tokenize source).dropLast = (Scanner.ofString source).tokens := by
  simp [tokenize, Scanner.remaining, Scanner.ofString]

/-! ## Words -/

/-- What a token says: its kind and its literal. -/
abbrev Word := TokenKind × String

/-- The word of a token. -/
def Token.word (t : Token) : Word := (t.kind, t.literal)

/-- The word of a delimiter, whose kind is named by its own text. -/
def delimiter (k : TokenKind) : Word := (k, k.name)

/-- The tokens `ts` begin with some that say `ws`, and `rest` follows these. -/
def Says (ts : List Token) (ws : List Word) (rest : List Token) : Prop :=
  ∃ us, ts = us ++ rest ∧ us.map Token.word = ws

namespace Says

variable {ts rest : List Token} {ws vs : List Word} {w : Word} {k : TokenKind} {s : String}

theorem nil (h : Says ts [] rest) : ts = rest := by
  obtain ⟨us, rfl, hus⟩ := h
  rw [List.map_eq_nil_iff.mp hus, List.nil_append]

theorem cons (h : Says ts ((k, s) :: ws) rest) :
    ∃ t us, ts = t :: us ∧ t.kind = k ∧ t.literal = s ∧ Says us ws rest := by
  obtain ⟨us, rfl, hus⟩ := h
  obtain ⟨t, us, rfl, ht, hws⟩ := List.map_eq_cons_iff.mp hus
  exact ⟨t, us ++ rest, rfl, congrArg Prod.fst ht, congrArg Prod.snd ht, us, rfl, hws⟩

theorem append (h : Says ts (ws ++ vs) rest) : ∃ us, Says ts ws us ∧ Says us vs rest := by
  obtain ⟨us, rfl, hus⟩ := h
  obtain ⟨us₁, us₂, rfl, h₁, h₂⟩ := List.map_eq_append_iff.mp hus
  exact ⟨us₂ ++ rest, ⟨us₁, List.append_assoc _ _ _, h₁⟩, us₂, rfl, h₂⟩

theorem trans {mid : List Token} (h₁ : Says ts ws mid) (h₂ : Says mid vs rest) :
    Says ts (ws ++ vs) rest := by
  obtain ⟨us₁, rfl, rfl⟩ := h₁
  obtain ⟨us₂, rfl, rfl⟩ := h₂
  exact ⟨us₁ ++ us₂, (List.append_assoc _ _ _).symm, List.map_append⟩

theorem token (t : Token) (rest : List Token) : Says (t :: rest) [t.word] rest := ⟨[t], rfl, rfl⟩

theorem kinds (h : Says ts ws rest) :
    ts.map Token.kind = ws.map Prod.fst ++ rest.map Token.kind := by
  obtain ⟨us, rfl, rfl⟩ := h
  simp [Token.word]

/-- A delimiter comes first. -/
theorem delimiter (h : Says ts (ClosureLang.delimiter k :: ws) rest) :
    ∃ t us, ts = t :: us ∧ t.kind = k ∧ Says us ws rest := by
  obtain ⟨t, us, hts, ht, _, hus⟩ := h.cons
  exact ⟨t, us, hts, ht, hus⟩

/-- A delimiter is all there is. -/
theorem last (h : Says ts [ClosureLang.delimiter k] rest) :
    ∃ t, ts = t :: rest ∧ t.kind = k := by
  obtain ⟨t, us, rfl, ht, hus⟩ := h.delimiter
  exact ⟨t, by rw [hus.nil], ht⟩

end Says

/-! ## Characters that scan as words -/

/-- The characters `cs` begin with the words `ws`, and `rest` follows these. -/
def Scans (cs : List Char) (ws : List Word) (rest : List Char) : Prop :=
  ∀ offset finished, ∃ offset', Says (Scanner.tokens ⟨cs, offset, finished⟩) ws
    (Scanner.tokens ⟨rest, offset', finished⟩)

/-- No character of a class comes first. -/
def Avoids (p : Char → Bool) (cs : List Char) : Prop := ∀ c ∈ cs.head?, p c = false

theorem avoids_cons {p : Char → Bool} {c : Char} {cs : List Char} :
    Avoids p (c :: cs) ↔ p c = false := by
  simp [Avoids]

theorem takeWhile_append_of_avoids {p : Char → Bool} {cs rest : List Char}
    (hcs : ∀ c ∈ cs, p c = true) (hrest : Avoids p rest) : (cs ++ rest).takeWhile p = cs := by
  rw [List.takeWhile_append_of_pos hcs]
  cases rest with
  | nil => simp
  | cons c rest => simp [avoids_cons.mp hrest]

theorem dropWhile_append_of_avoids {p : Char → Bool} {cs rest : List Char}
    (hcs : ∀ c ∈ cs, p c = true) (hrest : Avoids p rest) : (cs ++ rest).dropWhile p = rest := by
  rw [List.dropWhile_append_of_pos hcs]
  cases rest with
  | nil => simp
  | cons c rest => simp [avoids_cons.mp hrest]

theorem avoids_dropWhile (p : Char → Bool) (cs : List Char) : Avoids p (cs.dropWhile p) := by
  have hhead := List.head?_dropWhile_not p cs
  intro c hc
  rw [Option.mem_def.mp hc] at hhead
  simpa using hhead

/-- Characters of a class are dropped up to what follows them if no more of the class come there. -/
theorem dropWhile_append_eq_iff {p : Char → Bool} {cs rest : List Char}
    (hcs : ∀ c ∈ cs, p c = true) : (cs ++ rest).dropWhile p = rest ↔ Avoids p rest := by
  constructor
  · intro h
    rw [← h]
    exact avoids_dropWhile p (cs ++ rest)
  · exact dropWhile_append_of_avoids hcs

/-! ### Classes of characters are apart -/

/-- The characters that are blanks, quotes, operators or delimiters. -/
def specialChars : List Char :=
  [' ', '\t', '\n', '\r', '"', '=', '!', '*', '+', '-', '/', '<', '>', ',', ':', ';', '(', ')', '{',
    '}', '[', ']']

/-- What a character of a class without special characters does not do. -/
structure Ordinary (c : Char) : Prop where
  blank : isBlank c = false
  symbol : symbolKind? c = none
  quote : c ≠ '"'

theorem Ordinary.of_not_mem {c : Char} (h : c ∉ specialChars) : Ordinary c where
  blank := by
    simp only [isBlank, Bool.or_eq_false_iff, beq_eq_false_iff_ne]
    refine ⟨⟨⟨?_, ?_⟩, ?_⟩, ?_⟩ <;> rintro rfl <;> exact h (by decide)
  symbol := by
    unfold symbolKind?
    split <;> first | rfl | exact absurd (by decide) h
  quote := by
    rintro rfl
    exact h (by decide)

theorem isLetter_isDigit_of_special {c : Char} (hc : c ∈ specialChars) :
    isLetter c = false ∧ c.isDigit = false := by
  have hall : specialChars.all (fun d => !isLetter d && !d.isDigit) = true := by decide
  simpa using List.all_eq_true.mp hall c hc

theorem Ordinary.of_isLetter {c : Char} (h : isLetter c = true) : Ordinary c := by
  refine .of_not_mem fun hc => ?_
  rw [(isLetter_isDigit_of_special hc).1] at h
  cases h

theorem Ordinary.of_isDigit {c : Char} (h : c.isDigit = true) : Ordinary c := by
  refine .of_not_mem fun hc => ?_
  rw [(isLetter_isDigit_of_special hc).2] at h
  cases h

theorem isLetter_of_isDigit {c : Char} (h : c.isDigit = true) : isLetter c = false := by
  have hne : c ≠ '_' := by
    rintro rfl
    revert h
    decide
  simp only [Char.isDigit, Bool.and_eq_true, decide_eq_true_eq] at h
  -- letters come after the digits
  have hbefore : ∀ d : Char, '9'.val.toNat < d.val.toNat → ¬ d.val ≤ c.val := by
    intro d hd hdc
    have hc9 := UInt32.le_iff_toNat_le.mp h.2
    have hdc := UInt32.le_iff_toNat_le.mp hdc
    omega
  have hupper : c.isUpper = false := decide_eq_false fun hc => hbefore 'A' (by decide) hc.1
  have hlower : c.isLower = false := by
    show (decide ('a'.val ≤ c.val) && decide (c.val ≤ 'z'.val)) = false
    rw [decide_eq_false (hbefore 'a' (by decide)), Bool.false_and]
  show ((c.isUpper || c.isLower) || c == '_') = false
  rw [hupper, hlower, beq_eq_false_iff_ne.mpr hne]
  rfl

/-- A character that is no operator is not the first of two either. -/
theorem pairKind?_of_symbolKind? {c : Char} (h : symbolKind? c = none) (d : Char) :
    pairKind? c d = none := by
  unfold pairKind?
  split <;> first | rfl | (revert h; decide)

/-- A lexeme that starts with no operator. -/
theorem Lexeme.read_of_plain {c : Char} {cs : List Char} (h : symbolKind? c = none) :
    Lexeme.read c cs =
      if c = '"' then
        (⟨.string, cs.takeWhile (· != '"'), c :: (cs.takeWhile (· != '"') ++
          (cs.dropWhile (· != '"')).take 1)⟩, (cs.dropWhile (· != '"')).drop 1)
      else if isLetter c then
        (⟨wordKind (String.ofList (c :: cs.takeWhile isLetter)), c :: cs.takeWhile isLetter,
          c :: cs.takeWhile isLetter⟩, cs.dropWhile isLetter)
      else if c.isDigit then
        (⟨.int, c :: cs.takeWhile Char.isDigit, c :: cs.takeWhile Char.isDigit⟩,
          cs.dropWhile Char.isDigit)
      else (⟨.illegal, [c], [c]⟩, cs) := by
  have hpair : cs.head?.bind (pairKind? c) = none := by
    cases cs with
    | nil => rfl
    | cons d cs => exact pairKind?_of_symbolKind? h d
  simp only [Lexeme.read, hpair, h]

/-- Letters are read as a word if and only if nothing goes on with them. -/
theorem Lexeme.read_word_iff {c : Char} {cs : List Char} (h : ∀ d ∈ c :: cs, isLetter d = true)
    (rest : List Char) :
    Lexeme.read c (cs ++ rest) =
      (⟨wordKind (String.ofList (c :: cs)), c :: cs, c :: cs⟩, rest) ↔ Avoids isLetter rest := by
  rw [List.forall_mem_cons] at h
  have hord := Ordinary.of_isLetter h.1
  rw [Lexeme.read_of_plain hord.symbol, if_neg hord.quote, if_pos h.1]
  constructor
  · intro hread
    exact (dropWhile_append_eq_iff h.2).mp (congrArg Prod.snd hread)
  · intro hrest
    rw [takeWhile_append_of_avoids h.2 hrest, dropWhile_append_of_avoids h.2 hrest]

/-- Digits are read as a number if and only if nothing goes on with them. -/
theorem Lexeme.read_digits_iff {c : Char} {cs : List Char} (h : ∀ d ∈ c :: cs, d.isDigit = true)
    (rest : List Char) :
    Lexeme.read c (cs ++ rest) = (⟨.int, c :: cs, c :: cs⟩, rest) ↔ Avoids Char.isDigit rest := by
  rw [List.forall_mem_cons] at h
  have hord := Ordinary.of_isDigit h.1
  rw [Lexeme.read_of_plain hord.symbol, if_neg hord.quote,
    if_neg (by simp [isLetter_of_isDigit h.1]), if_pos h.1]
  constructor
  · intro hread
    exact (dropWhile_append_eq_iff h.2).mp (congrArg Prod.snd hread)
  · intro hrest
    rw [takeWhile_append_of_avoids h.2 hrest, dropWhile_append_of_avoids h.2 hrest]

namespace Scans

variable {c d : Char} {cs ds rest : List Char} {ws vs : List Word} {k : TokenKind}

theorem refl (cs : List Char) : Scans cs [] cs :=
  fun offset _ => ⟨offset, [], rfl, rfl⟩

theorem trans (h₁ : Scans cs ws ds) (h₂ : Scans ds vs rest) : Scans cs (ws ++ vs) rest := by
  intro offset finished
  obtain ⟨offset₁, us₁, heq₁, hws⟩ := h₁ offset finished
  obtain ⟨offset₂, us₂, heq₂, hvs⟩ := h₂ offset₁ finished
  exact ⟨offset₂, us₁ ++ us₂, by rw [heq₁, heq₂, List.append_assoc], by simp [hws, hvs]⟩

/-- Blanks are passed over. -/
theorem blank (hc : isBlank c = true) (h : Scans cs ws rest) : Scans (c :: cs) ws rest := by
  intro offset finished
  obtain ⟨offset', hws⟩ := h (offset + c.utf8Size) finished
  refine ⟨offset', ?_⟩
  -- the scanner drops blanks before it reads, so it reads the same from behind this one
  have hread : (⟨c :: cs, offset, finished⟩ : Scanner).read =
      (⟨cs, offset + c.utf8Size, finished⟩ : Scanner).read := by
    simp [Scanner.read, hc, Nat.add_assoc]
  have hdrop : (c :: cs).dropWhile isBlank = cs.dropWhile isBlank := by simp [hc]
  cases hcs : cs.dropWhile isBlank with
  | nil =>
    rw [Scanner.tokens_of_nil (hdrop.trans hcs)]
    rwa [Scanner.tokens_of_nil hcs] at hws
  | cons b bs =>
    rw [Scanner.tokens_of_cons (hdrop.trans hcs), hread]
    rwa [Scanner.tokens_of_cons hcs] at hws

/-- A character that is no blank starts a lexeme. -/
theorem lexeme (hc : isBlank c = false) (cs : List Char) :
    Scans (c :: cs) [((Lexeme.read c cs).1.kind, String.ofList (Lexeme.read c cs).1.literal)]
      (Lexeme.read c cs).2 := by
  intro offset finished
  have hdrop : (c :: cs).dropWhile isBlank = c :: cs := by simp [hc]
  rw [Scanner.tokens_of_cons (s := ⟨c :: cs, offset, finished⟩) hdrop]
  simp only [Scanner.read, hdrop]
  exact ⟨_, [_], rfl, rfl⟩

/-- An operator or delimiter of one character, unless it is the first of two. -/
theorem symbol (hc : isBlank c = false) (hpair : cs.head?.bind (pairKind? c) = none)
    (hk : symbolKind? c = some k) : Scans (c :: cs) [(k, String.ofList [c])] cs := by
  have h := lexeme hc cs
  simpa only [Lexeme.read, hpair, hk] using h

/-- An operator of two characters. -/
theorem pair (hc : isBlank c = false) (hk : pairKind? c d = some k) :
    Scans (c :: d :: cs) [(k, String.ofList [c, d])] cs := by
  have h := lexeme hc (d :: cs)
  simpa [Lexeme.read, hk] using h

/-- Letters that nothing goes on with are a word. -/
theorem word (hcs : cs ≠ []) (hletter : ∀ c ∈ cs, isLetter c = true)
    (hrest : Avoids isLetter rest) :
    Scans (cs ++ rest) [(wordKind (String.ofList cs), String.ofList cs)] rest := by
  obtain ⟨c, cs, rfl⟩ := List.exists_cons_of_ne_nil hcs
  have h := lexeme (Ordinary.of_isLetter (hletter c List.mem_cons_self)).blank (cs ++ rest)
  rw [(Lexeme.read_word_iff hletter rest).mpr hrest] at h
  exact h

/-- Digits that nothing goes on with are a number. -/
theorem digits (hcs : cs ≠ []) (hdigit : ∀ c ∈ cs, c.isDigit = true)
    (hrest : Avoids Char.isDigit rest) : Scans (cs ++ rest) [(.int, String.ofList cs)] rest := by
  obtain ⟨c, cs, rfl⟩ := List.exists_cons_of_ne_nil hcs
  have h := lexeme (Ordinary.of_isDigit (hdigit c List.mem_cons_self)).blank (cs ++ rest)
  rw [(Lexeme.read_digits_iff hdigit rest).mpr hrest] at h
  exact h

end Scans

end ClosureLang
