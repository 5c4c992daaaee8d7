import ClosureLang.Proofs.Token.Reading
import Mathlib.Data.String.Basic

/-!
# Tokens account for all of a source

The scanner gives token after token (`Scanner.Yields`), and each time it reads blanks, then the text
of the token, and stands behind that text (`Scanner.Passes`). So the spans of the tokens lie in
the source one behind the other, with nothing but blanks around them.

Offsets count bytes. They are compared with the positions of `String`, whose `extract` gives the text
between two of them.
-/

namespace ClosureLang

/-! ## Texts at offsets -/

/-- The text of a source between two offsets. -/
def textBetween (source : String) (i j : Nat) : String := String.Pos.Raw.extract source ⟨i⟩ ⟨j⟩

/-- The characters `text` stand in a source from an offset on, and `rest` follows them. -/
def StandsAt (source : String) (offset : Nat) (text rest : List Char) : Prop :=
  ∃ before, source.toList = before ++ (text ++ rest) ∧ offset = byteLength before

theorem byteLength_eq_utf8Len (cs : List Char) : byteLength cs = String.utf8Len cs := by
  induction cs with
  | nil => rfl
  | cons c cs ih => rw [byteLength_cons, String.utf8Len_cons, ih, Nat.add_comm]

theorem byteLength_toList (source : String) : byteLength source.toList = source.utf8ByteSize := by
  rw [byteLength_eq_utf8Len, String.utf8Len_toList]

theorem byteLength_pos {cs : List Char} (h : cs ≠ []) : 0 < byteLength cs := by
  obtain ⟨c, cs, rfl⟩ := List.exists_cons_of_ne_nil h
  have := c.utf8Size_pos
  rw [byteLength_cons]
  omega

namespace StandsAt

variable {source : String} {i : Nat} {text text' rest : List Char}

/-- The second part of a text stands behind the first. -/
theorem behind (h : StandsAt source i (text ++ text') rest) :
    StandsAt source (i + byteLength text) text' rest := by
  obtain ⟨before, hsource, rfl⟩ := h
  exact ⟨before ++ text, by simp [hsource], by simp⟩

/-- A text stands at the boundary of a character. -/
theorem isValid (h : StandsAt source i text rest) :
    String.Pos.Raw.IsValid source ⟨i⟩ := by
  obtain ⟨before, hsource, rfl⟩ := h
  refine String.Pos.Raw.isValid_iff_exists_append.mpr
    ⟨String.ofList before, String.ofList (text ++ rest), ?_, ?_⟩
  · rw [← String.ofList_append, ← hsource, String.ofList_toList]
  · rw [String.rawEndPos_ofList, byteLength_eq_utf8Len]

theorem textBetween_eq (h : StandsAt source i text rest) :
    textBetween source i (i + byteLength text) = String.ofList text := by
  obtain ⟨before, hsource, rfl⟩ := h
  have hextract := String.extract_of_valid before text rest
  rw [List.append_assoc, ← hsource, String.ofList_toList] at hextract
  rw [textBetween, byteLength_eq_utf8Len, byteLength_eq_utf8Len, hextract]

/-- A text with nothing behind it reaches the end of the source. -/
theorem stop_eq (h : StandsAt source i text []) : i + byteLength text = source.utf8ByteSize := by
  obtain ⟨before, hsource, rfl⟩ := h
  rw [← byteLength_toList, hsource, byteLength_append, List.append_nil]

end StandsAt

/-! ## The text of a token -/

/-- How a token of some kind is written, with `rest` behind it: a string in quotes, of which the
closing one is missing only at the end of the source, and every other token as its literal. -/
structure Written (kind : TokenKind) (literal text rest : List Char) : Prop where
  plain : kind ≠ .string → text = literal
  quoted : kind = .string → '"' ∉ literal ∧
    (text = '"' :: (literal ++ ['"']) ∨ text = '"' :: literal ∧ rest = [])

theorem Written.of_plain {kind : TokenKind} (h : kind ≠ .string) (text rest : List Char) :
    Written kind text text rest :=
  ⟨fun _ => rfl, fun hkind => absurd hkind h⟩

/-- A string runs to the next quote or, if there is none, to the end. -/
theorem Written.string (cs : List Char) :
    Written .string (cs.takeWhile (· != '"'))
      ('"' :: (cs.takeWhile (· != '"') ++ (cs.dropWhile (· != '"')).take 1))
      ((cs.dropWhile (· != '"')).drop 1) := by
  refine ⟨fun h => absurd rfl h, fun _ => ⟨fun hmem => ?_, ?_⟩⟩
  · have hquote := List.all_eq_true.mp (List.all_takeWhile (p := (· != '"')) (l := cs)) _ hmem
    simp at hquote
  · have hhead := List.head?_dropWhile_not (· != '"') cs
    cases hrest : cs.dropWhile (· != '"') with
    | nil => simp
    | cons d ds =>
      rw [hrest] at hhead
      have hd : d = '"' := by simpa using hhead
      simp [hd]

/-- A lexeme is written as its kind is. -/
theorem Lexeme.written (c : Char) (cs : List Char) :
    Written (Lexeme.read c cs).1.kind (Lexeme.read c cs).1.literal (Lexeme.read c cs).1.text
      (Lexeme.read c cs).2 := by
  have h := Lexeme.reads c cs
  generalize Lexeme.read c cs = r at h
  cases h with
  | pair _ hk => exact .of_plain (ne_of_mem_of_not_mem (pairKind?_mem hk) (by decide)) _ _
  | symbol _ hk => exact .of_plain (ne_of_mem_of_not_mem (symbolKind?_mem hk) (by decide)) _ _
  | string hquote =>
    subst hquote
    exact .string cs
  | word => exact .of_plain (ne_of_mem_of_not_mem (wordKind_mem _) (by decide)) _ _
  | digits => exact .of_plain TokenKind.noConfusion _ _
  | illegal => exact .of_plain TokenKind.noConfusion _ _

/-! ## One token after the other -/

namespace Scanner

/-- The blanks that come next. -/
def blanks (s : Scanner) : List Char := s.rest.takeWhile isBlank

/-- The text of the token that comes next. Only the ending token has none. -/
def readText (s : Scanner) : List Char :=
  match s.rest.dropWhile isBlank with
  | [] => []
  | c :: cs => (Lexeme.read c cs).1.text

theorem isBlank_of_mem_blanks {s : Scanner} : ∀ c ∈ s.blanks, isBlank c = true :=
  List.all_eq_true.mp List.all_takeWhile

/-- What reading a token does: it passes blanks and then the text of the token, and it stands behind
that text. -/
structure Passes (s : Scanner) (t : Token) (s' : Scanner) : Prop where
  rest : s.rest = s.blanks ++ (s.readText ++ s'.rest)
  start : t.start = s.offset + byteLength s.blanks
  stop : t.stop = t.start + byteLength s.readText
  offset : s'.offset = t.stop
  written : Written t.kind t.literal.toList s.readText s'.rest
  text : s.readText = [] ↔ t.kind = .eof

theorem passes_read (s : Scanner) : s.Passes s.read.1 s.read.2 := by
  have hsplit := (List.takeWhile_append_dropWhile (p := isBlank) (l := s.rest)).symm
  cases hrest : s.rest.dropWhile isBlank with
  | nil =>
    have htext : s.readText = [] := by rw [readText, hrest]
    rw [hrest] at hsplit
    exact {
      rest := by simpa [read, hrest, htext, blanks] using hsplit
      start := by simp only [read, hrest]; rfl
      stop := by simp only [read, hrest, htext]; rfl
      offset := by simp only [read, hrest]; rfl
      written := by
        rw [htext]
        simp only [read, hrest]
        exact .of_plain TokenKind.noConfusion _ _
      text := by simp [read, hrest, htext] }
  | cons c cs =>
    have htext : s.readText = (Lexeme.read c cs).1.text := by rw [readText, hrest]
    rw [hrest, ← Lexeme.text_append_rest c cs] at hsplit
    exact {
      rest := by simpa only [read, hrest, htext, blanks] using hsplit
      start := by simp only [read, hrest]; rfl
      stop := by simp only [read, hrest, htext]
      offset := by simp only [read, hrest]
      written := by
        simp only [read, hrest, htext, String.toList_ofList]
        exact Lexeme.written c cs
      text := by
        obtain ⟨tail, htail⟩ := Lexeme.text_eq_cons c cs
        simp only [read, hrest, htext, htail]
        exact iff_of_false (List.cons_ne_nil c tail) (Lexeme.kind_ne_eof c cs) }

namespace Passes

variable {source : String} {s s' : Scanner} {t : Token}

/-- The blanks stand at the place of the scanner. -/
theorem blanks_stand (h : s.Passes t s') (hplace : StandsAt source s.offset [] s.rest) :
    StandsAt source s.offset s.blanks (s.readText ++ s'.rest) := by
  obtain ⟨before, hsource, hbefore⟩ := hplace
  exact ⟨before, by rw [hsource, h.rest, List.nil_append], hbefore⟩

/-- The text of the token stands behind the blanks. -/
theorem text_stands (h : s.Passes t s') (hplace : StandsAt source s.offset [] s.rest) :
    StandsAt source t.start s.readText s'.rest := by
  obtain ⟨before, hsource, hbefore⟩ := h.blanks_stand hplace
  exact ⟨before ++ s.blanks, by rw [hsource, List.append_assoc], by
    rw [h.start, hbefore, byteLength_append]⟩

/-- The rest stands behind the text, and the scanner is there. -/
theorem rest_stands (h : s.Passes t s') (hplace : StandsAt source s.offset [] s.rest) :
    StandsAt source s'.offset [] s'.rest := by
  have htext := h.text_stands hplace
  rw [← List.append_nil s.readText] at htext
  rw [h.offset, h.stop]
  exact htext.behind

end Passes

/-- The tokens that a scanner gives until it gives no more. -/
inductive Yields : Scanner → List Token → Prop where
  | done {s} : s.next? = none → Yields s []
  | more {s t s' ts} : s.next? = some (t, s') → Yields s' ts → Yields s (t :: ts)

theorem yields_of_finished {s : Scanner} (h : s.finished = true) : s.Yields [] :=
  .done (by simp [next?, h])

theorem next?_of_not_finished {s : Scanner} (h : s.finished = false) :
    s.next? = some (s.read.1, { s.read.2 with finished := s.read.1.kind == .eof }) := by
  simp [next?, h]

/-- **A scanner gives finitely many tokens**, those that are left and then the ending one. -/
theorem yields_remaining {s : Scanner} (h : s.finished = false) : s.Yields s.remaining := by
  induction s using tokens.induct with
  | case1 s hrest =>
    -- only blanks are left, so they reach the end
    have hblanks : s.rest.takeWhile isBlank = s.rest := by
      have hsplit := List.takeWhile_append_dropWhile (p := isBlank) (l := s.rest)
      rwa [hrest, List.append_nil] at hsplit
    have hread : s.read.1 = Token.ending s.stop := by simp [read, hrest, stop, hblanks]
    rw [remaining, if_neg (by simp [h]), tokens_of_nil hrest, ← hread]
    exact .more (next?_of_not_finished h) (yields_of_finished (by simp [hread]))
  | case2 s c cs hrest ih =>
    have hkind := kind_read_ne_eof hrest
    have hfinished : s.read.2.finished = false := by simpa [read, hrest] using h
    have hstop : s.read.2.stop = s.stop := by
      have hpasses := s.passes_read
      rw [stop, stop, hpasses.rest, hpasses.offset, hpasses.stop, hpasses.start]
      simp only [byteLength_append]
      omega
    have hnext : s.next? = some (s.read.1, s.read.2) := by
      rw [next?_of_not_finished h, beq_false_of_ne hkind, ← hfinished]
    have hyields := ih hfinished
    rw [remaining, if_neg (by simp [hfinished]), hstop] at hyields
    rw [remaining, if_neg (by simp [h]), tokens_of_cons hrest]
    exact .more hnext hyields

end Scanner

/-! ## All tokens -/

/-- Where the gaps before some tokens begin and end, the first one at an offset. -/
def gaps : Nat → List Token → List (Nat × Nat)
  | _, [] => []
  | i, t :: ts => (i, t.start) :: gaps t.stop ts

/-- A token lies in a source: its text stands there, where the token says. -/
def Token.LiesIn (source : String) (t : Token) : Prop :=
  ∃ text rest, StandsAt source t.start text rest ∧ t.stop = t.start + byteLength text ∧
    Written t.kind t.literal.toList text rest ∧ (text = [] ↔ t.kind = .eof)

namespace Token.LiesIn

variable {source : String} {t : Token}

theorem start_le_stop (h : t.LiesIn source) : t.start ≤ t.stop := by
  obtain ⟨text, rest, -, hstop, -⟩ := h
  omega

theorem start_lt_stop (h : t.LiesIn source) (hkind : t.kind ≠ .eof) : t.start < t.stop := by
  obtain ⟨text, rest, -, hstop, -, htext⟩ := h
  have := byteLength_pos (mt htext.mp hkind)
  omega

/-- A token starts and stops at boundaries of characters. -/
theorem isValid (h : t.LiesIn source) : String.Pos.Raw.IsValid source ⟨t.start⟩ ∧
    String.Pos.Raw.IsValid source ⟨t.stop⟩ := by
  obtain ⟨text, rest, hstands, hstop, -⟩ := h
  rw [hstop]
  rw [← List.append_nil text] at hstands
  exact ⟨hstands.isValid, hstands.behind.isValid⟩

theorem text_of_plain (h : t.LiesIn source) (hkind : t.kind ≠ .string) :
    textBetween source t.start t.stop = t.literal := by
  obtain ⟨text, rest, hstands, hstop, hwritten, -⟩ := h
  rw [hstop, hstands.textBetween_eq, hwritten.plain hkind, String.ofList_toList]

theorem text_of_string (h : t.LiesIn source) (hkind : t.kind = .string) :
    '"' ∉ t.literal.toList ∧
      (textBetween source t.start t.stop = "\"" ++ t.literal ++ "\"" ∨
        textBetween source t.start t.stop = "\"" ++ t.literal ∧
          t.stop = source.utf8ByteSize) := by
  obtain ⟨text, rest, hstands, hstop, hwritten, -⟩ := h
  obtain ⟨hquote, hclosed | ⟨hopen, hrest⟩⟩ := hwritten.quoted hkind
  · refine ⟨hquote, Or.inl ?_⟩
    rw [hstop, hstands.textBetween_eq, hclosed, ← String.toList_inj]
    simp
  · refine ⟨hquote, Or.inr ⟨?_, ?_⟩⟩
    · rw [hstop, hstands.textBetween_eq, hopen, ← String.toList_inj]
      simp
    · subst hrest
      rw [hstop, hstands.stop_eq]

end Token.LiesIn

/-- Tokens that lie in a source one behind the other from an offset on, with blanks before each. -/
structure Placed (source : String) (offset : Nat) (ts : List Token) : Prop where
  lie : ∀ t ∈ ts, t.LiesIn source
  behind : ∀ t ∈ ts, offset ≤ t.start
  ordered : ts.Pairwise fun t u => t.stop ≤ u.start
  blank : ∀ g ∈ gaps offset ts, ∀ c ∈ (textBetween source g.1 g.2).toList, isBlank c = true

/-- **What a scanner gives lies in the source from the place of the scanner on.** -/
theorem Scanner.Yields.placed {source : String} {s : Scanner} {ts : List Token} (h : s.Yields ts)
    (hplace : StandsAt source s.offset [] s.rest) : Placed source s.offset ts := by
  induction h with
  | done => exact ⟨by simp, by simp, .nil, by simp [gaps]⟩
  | @more s t s' ts hnext _ ih =>
    have hfinished : s.finished = false := by
      cases hf : s.finished with
      | false => rfl
      | true => simp [next?, hf] at hnext
    rw [next?_of_not_finished hfinished] at hnext
    cases hnext
    have hpasses := s.passes_read
    have hplaced := ih (hpasses.rest_stands hplace)
    have hlies : s.read.1.LiesIn source :=
      ⟨s.readText, _, hpasses.text_stands hplace, hpasses.stop, hpasses.written, hpasses.text⟩
    have hstart := hpasses.start
    have hle := hlies.start_le_stop
    have hbehind : ∀ t ∈ ts, s.read.1.stop ≤ t.start := by
      rw [← hpasses.offset]
      exact hplaced.behind
    refine ⟨?_, ?_, List.pairwise_cons.mpr ⟨hbehind, hplaced.ordered⟩, ?_⟩
    · rintro t (_ | ⟨_, ht⟩)
      · exact hlies
      · exact hplaced.lie t ht
    · rintro t (_ | ⟨_, ht⟩)
      · omega
      · have := hbehind t ht
        omega
    · rintro g (_ | ⟨_, hg⟩)
      · rw [hstart, (hpasses.blanks_stand hplace).textBetween_eq, String.toList_ofList]
        exact isBlank_of_mem_blanks
      · exact hplaced.blank g (by rwa [hpasses.offset])

/-- Tokens that account for all of a source. -/
structure Accounts (source : String) (ts : List Token) : Prop where
  /-- The ending token stands at the end, and nowhere else. -/
  ending : ∃ us, ts = us ++ [Token.ending source.utf8ByteSize] ∧ ∀ t ∈ us, t.kind ≠ .eof
  nonempty : ∀ t ∈ ts, t.kind ≠ .eof → t.start < t.stop
  ordered : ts.Pairwise fun t u => t.stop ≤ u.start
  /-- Before the first token, between tokens and behind the last one there are blanks only. -/
  blank : ∀ g ∈ gaps 0 ts, ∀ c ∈ (textBetween source g.1 g.2).toList, c ∈ [' ', '\t', '\r', '\n']
  boundary : ∀ t ∈ ts, String.Pos.Raw.IsValid source ⟨t.start⟩ ∧
    String.Pos.Raw.IsValid source ⟨t.stop⟩
  plain : ∀ t ∈ ts, t.kind ≠ .string → textBetween source t.start t.stop = t.literal
  /-- The closing quote of a string is missing only if the string runs to the end. -/
  quoted : ∀ t ∈ ts, t.kind = .string → '"' ∉ t.literal.toList ∧
    (textBetween source t.start t.stop = "\"" ++ t.literal ++ "\"" ∨
      textBetween source t.start t.stop = "\"" ++ t.literal ∧ t.stop = source.utf8ByteSize)

theorem mem_of_isBlank {c : Char} (h : isBlank c = true) : c ∈ [' ', '\t', '\r', '\n'] := by
  simp only [isBlank, Bool.or_eq_true, beq_iff_eq] at h
  simp only [List.mem_cons, List.not_mem_nil, or_false]
  tauto

/-- **Scanning loses nothing.** A scanner at the beginning of a source gives the tokens of the source
and then no more, and these account for all of the source. -/
theorem tokens_account_for_source (source : String) :
    (Scanner.ofString source).Yields (tokenize source) ∧ Accounts source (tokenize source) := by
  have hyields : (Scanner.ofString source).Yields (tokenize source) := Scanner.yields_remaining rfl
  have hplaced : Placed source 0 (tokenize source) := hyields.placed ⟨[], rfl, rfl⟩
  refine ⟨hyields, ?_, fun t ht => (hplaced.lie t ht).start_lt_stop, hplaced.ordered,
    fun g hg c hc => mem_of_isBlank (hplaced.blank g hg c hc), fun t ht => (hplaced.lie t ht).isValid,
    fun t ht => (hplaced.lie t ht).text_of_plain, fun t ht => (hplaced.lie t ht).text_of_string⟩
  have hstop : (Scanner.ofString source).stop = source.utf8ByteSize := by
    rw [Scanner.stop, ← byteLength_toList]
    exact Nat.zero_add _
  refine ⟨(Scanner.ofString source).tokens, ?_, fun t => Scanner.kind_ne_eof_of_mem⟩
  rw [← hstop]
  rfl

end ClosureLang
