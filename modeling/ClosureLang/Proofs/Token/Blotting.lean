import ClosureLang.Proofs.Token.Mending

/-!
# Writing over a token

A token of a source is replaced by other characters with a blank on either side. The blanks keep them
apart from the tokens around, so the source then scans as its own words with the word of that token
replaced by theirs (`words_overwrite`). A token is blotted by a character that starts no lexeme, and
severed from what follows it by a statement of its own, `0;`.
-/

namespace ClosureLang

/-- Characters that start no lexeme. -/
def isIllegal (c : Char) : Bool := !specialChars.contains c && !isLetter c && !c.isDigit

/-- A source with other characters in place of a token, set off by blanks. -/
def overwrite (source : String) (t : Token) (cs : List Char) : String :=
  textBetween source 0 t.start ++ String.ofList (' ' :: (cs ++ [' '])) ++
    textBetween source t.stop source.utf8ByteSize

/-- A source with a single character in place of a token. -/
def blot (source : String) (t : Token) (c : Char) : String := overwrite source t [c]

/-- A source with a statement in place of a token. -/
def sever (source : String) (t : Token) : String := overwrite source t ['0', ';']

/-- A blank may stand in place of whatever follows a lexeme. -/
theorem MayFollow.blank {rest : List Char} (h : rest ≠ []) (cs : List Char) :
    MayFollow rest (' ' :: cs) where
  letter := fun _ => avoids_cons.mpr (by decide)
  digit := fun _ => avoids_cons.mpr (by decide)
  pair := by
    intro c _
    show pairKind? c ' ' = none
    unfold pairKind?
    split <;> first | rfl | contradiction
  nil := fun hrest => absurd hrest h

/-- A character that starts no lexeme is not blank, and is read on its own. -/
theorem Lexeme.read_of_isIllegal {c : Char} (h : isIllegal c = true) (cs : List Char) :
    isBlank c = false ∧ Lexeme.read c cs = (⟨.illegal, [c], [c]⟩, cs) := by
  simp only [isIllegal, Bool.and_eq_true, Bool.not_eq_true', List.contains_eq_mem,
    decide_eq_false_iff_not] at h
  have hord := Ordinary.of_not_mem h.1.1
  refine ⟨hord.blank, ?_⟩
  rw [Lexeme.read_of_plain hord.symbol, if_neg hord.quote, if_neg (by simp [h.1.2]),
    if_neg (by simp [h.2])]

/-- An illegal character that stands between blanks. -/
theorem Scans.illegal {c : Char} (h : isIllegal c = true) (rest : List Char) :
    Scans (' ' :: c :: ' ' :: rest) [(.illegal, String.ofList [c])] rest := by
  obtain ⟨hblank, hread⟩ := Lexeme.read_of_isIllegal h (' ' :: rest)
  have hlexeme := Scans.lexeme hblank (' ' :: rest)
  rw [hread] at hlexeme
  exact .blank rfl (hlexeme.trans (.blank rfl (.refl rest)))

/-- A statement that stands between blanks. -/
theorem Scans.zero (rest : List Char) :
    Scans (' ' :: '0' :: ';' :: ' ' :: rest) [(.int, "0"), (.semicolon, ";")] rest := by
  have hzero := Scans.lexeme (c := '0') rfl (';' :: ' ' :: rest)
  have hsemicolon := Scans.lexeme (c := ';') rfl (' ' :: rest)
  exact .blank rfl (hzero.trans (hsemicolon.trans (.blank rfl (.refl rest))))

namespace Scanner

/-- What is left scans as the words of its tokens. -/
theorem scans_rest (s : Scanner) : Scans s.rest (s.tokens.map Token.word) [] := by
  induction s using tokens.induct with
  | case1 s h =>
    obtain ⟨bs, hbs, hblank⟩ := rest_eq_blanks h
    rw [tokens_of_nil h, hbs]
    exact .blanks hblank []
  | case2 s c cs h ih =>
    have hword := scans_readText h (SameStart.refl s.read.2.rest).mayFollow
    rw [tokens_of_cons h, s.passes_read.rest]
    exact (Scans.blanks isBlank_of_mem_blanks _).trans (hword.trans ih)

/-- Where a token stands among the characters that are left: `pre` before it and `post` after it. If
a blank takes its place, `pre` still scans as the words before it. -/
structure Splits (s : Scanner) (before : List Token) (t : Token) (after : List Token)
    (pre text post : List Char) : Prop where
  rest : s.rest = pre ++ (text ++ post)
  nonempty : text ≠ []
  start : t.start = s.offset + byteLength pre
  stop : t.stop = t.start + byteLength text
  before : ∀ cs, Scans (pre ++ ' ' :: cs) (before.map Token.word) (' ' :: cs)
  after : Scans post (after.map Token.word) []

/-- The first token is the one that is read next. -/
theorem read_of_tokens {s : Scanner} {t : Token} {ts : List Token} (h : s.tokens = t :: ts) :
    ∃ c cs, s.rest.dropWhile isBlank = c :: cs ∧ s.read.1 = t ∧ s.read.2.tokens = ts := by
  cases hdrop : s.rest.dropWhile isBlank with
  | nil =>
    rw [tokens_of_nil hdrop] at h
    cases h
  | cons c cs =>
    rw [tokens_of_cons hdrop] at h
    obtain ⟨ht, hts⟩ := List.cons.inj h
    exact ⟨c, cs, rfl, ht, hts⟩

theorem exists_splits {s : Scanner} {before after : List Token} {t : Token}
    (h : s.tokens = before ++ t :: after) :
    ∃ pre text post, s.Splits before t after pre text post := by
  induction before generalizing s with
  | nil =>
    obtain ⟨c, cs, hdrop, rfl, rfl⟩ := read_of_tokens h
    have hpasses := s.passes_read
    exact ⟨s.blanks, s.readText, s.read.2.rest, {
      rest := hpasses.rest
      nonempty := fun hnil => kind_read_ne_eof hdrop (hpasses.text.mp hnil)
      start := hpasses.start
      stop := hpasses.stop
      before := fun cs => Scans.blanks isBlank_of_mem_blanks _
      after := s.read.2.scans_rest }⟩
  | cons u before ih =>
    obtain ⟨c, cs, hdrop, rfl, htokens⟩ := read_of_tokens h
    obtain ⟨pre, text, post, hsplits⟩ := ih htokens
    have hpasses := s.passes_read
    -- the token before keeps its text: what follows it starts as before, or with a blank
    have hfollow : ∀ ds, MayFollow s.read.2.rest (pre ++ ' ' :: ds) := by
      intro ds
      rw [hsplits.rest]
      cases pre with
      | nil => exact .blank (by simp [hsplits.nonempty]) ds
      | cons d pre => exact (SameStart.char d _ _).mayFollow
    refine ⟨s.blanks ++ (s.readText ++ pre), text, post, {
      rest := by rw [hpasses.rest, hsplits.rest]; simp
      nonempty := hsplits.nonempty
      start := ?_
      stop := hsplits.stop
      before := ?_
      after := hsplits.after }⟩
    · rw [hsplits.start, hpasses.offset, hpasses.stop, hpasses.start]
      simp only [byteLength_append]
      omega
    · intro ds
      have hword := scans_readText hdrop (hfollow ds)
      rw [List.append_assoc, List.append_assoc, List.map_cons]
      exact (Scans.blanks isBlank_of_mem_blanks _).trans (hword.trans (hsplits.before ds))

end Scanner

/-- **A source that is written over says the same but for the token that is replaced.** -/
theorem words_overwrite {source : String} {before after : List Token} {t : Token}
    (h : (Scanner.ofString source).tokens = before ++ t :: after) {cs : List Char}
    {ws : List Word} (hcs : ∀ rest, Scans (' ' :: (cs ++ ' ' :: rest)) ws rest) :
    (Scanner.ofString (overwrite source t cs)).tokens.map Token.word =
      before.map Token.word ++ (ws ++ after.map Token.word) := by
  obtain ⟨pre, text, post, hsplits⟩ := Scanner.exists_splits h
  have hsource : source.toList = pre ++ (text ++ post) := hsplits.rest
  have hstart : t.start = 0 + byteLength pre := hsplits.start
  have hpre : StandsAt source 0 pre (text ++ post) := ⟨[], hsource, rfl⟩
  have hpost : StandsAt source t.stop post [] :=
    ⟨pre ++ text, by simp [hsource], by rw [hsplits.stop, hstart]; simp⟩
  have hover : (overwrite source t cs).toList = pre ++ (' ' :: (cs ++ ' ' :: post)) := by
    rw [overwrite, hstart, hpre.textBetween_eq, ← hpost.stop_eq, hpost.textBetween_eq]
    simp
  have hscans := (hsplits.before _).trans ((hcs post).trans hsplits.after)
  rw [← hover] at hscans
  obtain ⟨offset, us, hus, hwords⟩ := hscans 0 false
  rw [Scanner.tokens_of_nil (s := ⟨[], offset, false⟩) rfl, List.append_nil] at hus
  rw [← hwords, ← hus]
  rfl

section Words

variable {source : String} {before after : List Token} {t : Token}
  (h : (Scanner.ofString source).tokens = before ++ t :: after)

include h

theorem words_blot {c : Char} (hc : isIllegal c = true) :
    (Scanner.ofString (blot source t c)).tokens.map Token.word =
      before.map Token.word ++ (.illegal, String.ofList [c]) :: after.map Token.word :=
  @words_overwrite source before after t h [c] _ (Scans.illegal hc)

theorem words_sever :
    (Scanner.ofString (sever source t)).tokens.map Token.word =
      before.map Token.word ++ (.int, "0") :: (.semicolon, ";") :: after.map Token.word :=
  @words_overwrite source before after t h ['0', ';'] _ Scans.zero

end Words

end ClosureLang
