import ClosureLang.Parse.Production
import ClosureLang.Proofs.Token.Joining
import ClosureLang.Proofs.Token.Spans

/-!
# Mending a source

A source is mended by writing `0` over each integer that does not fit 64 bits with a sign. A lexeme
depends on what follows it only through the first character of that, and not even on which digit
this is (`SameStart`). So a mended source scans as the words of the source with the
words of those integers replaced, and with no other change (`words_mend`).
-/

namespace ClosureLang

/-- An integer that does not fit 64 bits with a sign. -/
def Token.tooLarge (t : Token) : Bool := t.kind == .int && (readInteger? t.literal).isNone

/-- What a token says once it is mended. -/
def Token.mendedWord (t : Token) : Word := if t.tooLarge then (.int, "0") else t.word

/-- A source from an offset on, with `0` in place of the text of each token that is too large. -/
def mendFrom (source : String) : Nat → List Token → String
  | i, [] => textBetween source i source.utf8ByteSize
  | i, t :: ts =>
    textBetween source i t.start ++
      (if t.tooLarge then "0" else textBetween source t.start t.stop) ++ mendFrom source t.stop ts

/-- A source with `0` in place of each integer that is too large. -/
def mend (source : String) : String := mendFrom source 0 (tokenize source).dropLast

/-! ## What follows a lexeme -/

/-- Texts with the same first character, if two digits count as the same. -/
inductive SameStart : List Char → List Char → Prop where
  | nil : SameStart [] []
  | char (c : Char) (cs ds : List Char) : SameStart (c :: cs) (c :: ds)
  | digit {c d : Char} (cs ds : List Char) : c.isDigit = true → d.isDigit = true →
      SameStart (c :: cs) (d :: ds)

namespace SameStart

variable {rest rest' : List Char}

theorem refl : ∀ cs : List Char, SameStart cs cs
  | [] => .nil
  | c :: cs => .char c cs cs

theorem append (cs : List Char) (h : SameStart rest rest') :
    SameStart (cs ++ rest) (cs ++ rest') := by
  cases cs with
  | nil => exact h
  | cons c cs => exact .char c _ _

/-- No character of a class comes first, if all digits are in it or none is. -/
theorem avoids {p : Char → Bool} (hp : ∀ c d : Char, c.isDigit = true → d.isDigit = true → p c = p d)
    (h : SameStart rest rest') (hrest : Avoids p rest) : Avoids p rest' := by
  cases h with
  | nil => exact hrest
  | char => exact avoids_cons.mpr (avoids_cons.mp hrest)
  | digit cs ds hc hd => exact avoids_cons.mpr ((hp _ _ hd hc).trans (avoids_cons.mp hrest))

/-- A digit is not the second character of an operator. -/
theorem not_pair {c : Char} (h : SameStart rest rest')
    (hpair : rest.head?.bind (pairKind? c) = none) : rest'.head?.bind (pairKind? c) = none := by
  cases h with
  | nil => rfl
  | char => exact hpair
  | @digit _ d _ _ _ hd =>
    show pairKind? c d = none
    unfold pairKind?
    split <;> first | rfl | (revert hd; decide)

theorem mayFollow (h : SameStart rest rest') : MayFollow rest rest' where
  letter := h.avoids fun c d hc hd => by rw [isLetter_of_isDigit hc, isLetter_of_isDigit hd]
  digit := h.avoids fun c d hc hd => by rw [hc, hd]
  pair := fun _ => h.not_pair
  nil := by
    rintro rfl
    cases h
    rfl

end SameStart

/-- An integer starts with a digit, and no digit follows it. -/
theorem Lexeme.of_int {c : Char} {cs : List Char} (h : (Lexeme.read c cs).1.kind = .int) :
    c.isDigit = true ∧ Avoids Char.isDigit (Lexeme.read c cs).2 := by
  have hreads := Lexeme.reads c cs
  generalize Lexeme.read c cs = r at h hreads
  cases hreads with
  | pair _ hk => exact absurd h (ne_of_mem_of_not_mem (pairKind?_mem hk) (by decide))
  | symbol _ hk => exact absurd h (ne_of_mem_of_not_mem (symbolKind?_mem hk) (by decide))
  | word => exact absurd h (ne_of_mem_of_not_mem (wordKind_mem _) (by decide))
  | digits hdigit => exact ⟨hdigit, avoids_dropWhile Char.isDigit cs⟩
  | _ => cases h

/-! ## All tokens -/

/-- What is written for the text of a token: `0` if it is too large. -/
def Token.mendedText (t : Token) (text : List Char) : List Char :=
  if t.tooLarge then ['0'] else text

namespace Scanner

variable {s : Scanner} {c : Char} {cs rest' : List Char}

/-- The text of a token says what the token says, whatever may follow it. -/
theorem scans_readText (h : s.rest.dropWhile isBlank = c :: cs)
    (hfollow : MayFollow s.read.2.rest rest') :
    Scans (s.readText ++ rest') [s.read.1.word] rest' := by
  obtain ⟨text, htext⟩ := Lexeme.text_eq_cons c cs
  have hread : s.readText = c :: text := by
    rw [readText, h]
    exact htext
  have hrest : s.read.2.rest = (Lexeme.read c cs).2 := by simp only [read, h]
  have hword : s.read.1.word =
      ((Lexeme.read c cs).1.kind, String.ofList (Lexeme.read c cs).1.literal) := by
    simp only [read, h, Token.word]
  have hblank : isBlank c = false := by
    have hhead := List.head?_dropWhile_not isBlank s.rest
    rw [h] at hhead
    simpa using hhead
  rw [hrest] at hfollow
  have hscans := Scans.lexeme hblank (text ++ rest')
  rw [Lexeme.read_of_mayFollow htext hfollow, ← hword] at hscans
  rw [hread]
  exact hscans

/-- The text of a token, mended, starts as the text does, and says what the token says once it is
mended. -/
theorem scans_mendedText (h : s.rest.dropWhile isBlank = c :: cs)
    (hsame : SameStart s.read.2.rest rest') :
    Scans (s.read.1.mendedText s.readText ++ rest') [s.read.1.mendedWord] rest' ∧
      SameStart (s.readText ++ s.read.2.rest) (s.read.1.mendedText s.readText ++ rest') := by
  obtain ⟨text, htext⟩ := Lexeme.text_eq_cons c cs
  have hread : s.readText = c :: text := by
    rw [readText, h]
    exact htext
  rw [Token.mendedText, Token.mendedWord]
  split
  · next hlarge =>
    have hkind : (Lexeme.read c cs).1.kind = .int := by
      rw [Token.tooLarge, Bool.and_eq_true, beq_iff_eq] at hlarge
      simpa only [read, h] using hlarge.1
    have hrest : s.read.2.rest = (Lexeme.read c cs).2 := by simp only [read, h]
    obtain ⟨hdigit, havoids⟩ := Lexeme.of_int hkind
    rw [← hrest] at havoids
    rw [hread]
    exact ⟨.digits (by simp) (by simp) (hsame.mayFollow.digit havoids),
      .digit _ _ hdigit (by decide)⟩
  · refine ⟨scans_readText h hsame.mayFollow, ?_⟩
    rw [hread]
    exact .char c _ _

/-- **The rest of a source, mended, scans as the mended words** of its tokens, and starts as the rest
does. -/
theorem scans_mendFrom {source : String} {s : Scanner}
    (hplace : StandsAt source s.offset [] s.rest) :
    Scans (mendFrom source s.offset s.tokens).toList (s.tokens.map Token.mendedWord) [] ∧
      SameStart s.rest (mendFrom source s.offset s.tokens).toList := by
  induction s using tokens.induct with
  | case1 s h =>
    obtain ⟨bs, hbs, hblank⟩ := rest_eq_blanks h
    have hall : StandsAt source s.offset s.rest [] := by
      rwa [StandsAt, List.append_nil]
    have hmended : (mendFrom source s.offset []).toList = s.rest := by
      rw [mendFrom, ← hall.stop_eq, hall.textBetween_eq, String.toList_ofList]
    rw [tokens_of_nil h, hmended, hbs]
    exact ⟨.blanks hblank [], .refl _⟩
  | case2 s c cs h ih =>
    have hpasses := s.passes_read
    obtain ⟨hscans, hsame⟩ := ih (hpasses.rest_stands hplace)
    obtain ⟨hword, hstart⟩ := scans_mendedText h hsame
    have hmended : (mendFrom source s.offset (s.read.1 :: s.read.2.tokens)).toList =
        s.blanks ++ (s.read.1.mendedText s.readText ++
          (mendFrom source s.read.2.offset s.read.2.tokens).toList) := by
      have hbefore := (hpasses.blanks_stand hplace).textBetween_eq
      have htext := (hpasses.text_stands hplace).textBetween_eq
      rw [← hpasses.start] at hbefore
      rw [← hpasses.stop] at htext
      rw [mendFrom, hbefore, htext, hpasses.offset, Token.mendedText]
      split <;> simp
    rw [tokens_of_cons h, hmended, hpasses.rest, List.map_cons]
    exact ⟨(Scans.blanks isBlank_of_mem_blanks _).trans (hword.trans hscans), hstart.append _⟩

end Scanner

/-- **A mended source says the same but for the integers that are too large.** -/
theorem words_mend (source : String) :
    (Scanner.ofString (mend source)).tokens.map Token.word =
      (Scanner.ofString source).tokens.map Token.mendedWord := by
  have hplace : StandsAt source (Scanner.ofString source).offset [] (Scanner.ofString source).rest :=
    ⟨[], rfl, rfl⟩
  obtain ⟨offset, us, hus, hwords⟩ := (Scanner.scans_mendFrom hplace).1 0 false
  have hend : (⟨[], offset, false⟩ : Scanner).tokens = [] := Scanner.tokens_of_nil rfl
  rw [hend, List.append_nil] at hus
  rw [← hwords, ← hus, mend, dropLast_tokenize]
  rfl

end ClosureLang
