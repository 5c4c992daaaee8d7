import ClosureLang.Proofs.Token.Reading

/-!
# Joining texts

The scanner looks beyond the lexeme it reads, so what follows a text can change the last of its
tokens: a word or a number goes on, an operator becomes the first half of another one, a string that
nothing closes runs to the end. A semicolon is never more than itself. A text whose last token is a
semicolon therefore has the same words whatever follows it (`Scanner.scans_append`). In general a
lexeme stays the same if what follows it is replaced by something that does not go on with it either
(`Lexeme.read_of_mayFollow`).
-/

namespace ClosureLang

/-! ## One lexeme -/

/-- A semicolon is read on its own. -/
theorem Lexeme.read_semicolon (cs : List Char) :
    Lexeme.read ';' cs = (⟨.semicolon, [';'], [';']⟩, cs) := by
  have hpair : cs.head?.bind (pairKind? ';') = none := by
    cases cs <;> rfl
  simp only [Lexeme.read, hpair]
  rfl

theorem symbolKind?_semicolon {c : Char} (h : symbolKind? c = some .semicolon) : c = ';' := by
  unfold symbolKind? at h
  split at h <;> first | rfl | cases h

/-- Nothing but a semicolon is read as one. -/
theorem Lexeme.eq_semicolon {c : Char} {cs : List Char}
    (h : (Lexeme.read c cs).1.kind = .semicolon) : c = ';' := by
  have hreads := Lexeme.reads c cs
  generalize Lexeme.read c cs = r at h hreads
  cases hreads with
  | pair _ hk => exact absurd h (ne_of_mem_of_not_mem (pairKind?_mem hk) (by decide))
  | symbol _ hk => exact symbolKind?_semicolon (hk.trans (congrArg some h))
  | word => exact absurd h (ne_of_mem_of_not_mem (wordKind_mem _) (by decide))
  | _ => cases h

theorem takeWhile_append_of_dropWhile {p : Char → Bool} {cs : List Char}
    (h : cs.dropWhile p ≠ []) (rest : List Char) : (cs ++ rest).takeWhile p = cs.takeWhile p := by
  obtain ⟨d, ds, hds⟩ := List.exists_cons_of_ne_nil h
  rw [List.takeWhile_append, if_neg]
  intro hlength
  have hsum := congrArg List.length (List.takeWhile_append_dropWhile (p := p) (l := cs))
  rw [hds, List.length_append, List.length_cons] at hsum
  omega

theorem dropWhile_append_of_dropWhile {p : Char → Bool} {cs : List Char}
    (h : cs.dropWhile p ≠ []) (rest : List Char) :
    (cs ++ rest).dropWhile p = cs.dropWhile p ++ rest := by
  rw [List.dropWhile_append, if_neg (by simpa using h)]

/-- A lexeme that does not reach the end of a text is the same in every longer text. -/
theorem Lexeme.read_append {c : Char} {cs : List Char} (h : (Lexeme.read c cs).2 ≠ [])
    (rest : List Char) :
    Lexeme.read c (cs ++ rest) = ((Lexeme.read c cs).1, (Lexeme.read c cs).2 ++ rest) := by
  have hne : cs ≠ [] := by
    rintro rfl
    exact h (List.length_eq_zero_iff.mp (Nat.le_zero.mp (Lexeme.length_rest_le c [])))
  obtain ⟨d, ds, rfl⟩ := List.exists_cons_of_ne_nil hne
  cases hsymbol : symbolKind? c with
  | some k =>
    simp only [Lexeme.read, List.cons_append, List.head?_cons, hsymbol]
    split <;> rfl
  | none =>
    rw [Lexeme.read_of_plain hsymbol] at h ⊢
    rw [Lexeme.read_of_plain hsymbol]
    split
    · next hquote =>
      rw [if_pos hquote] at h
      have hclosed : (d :: ds).dropWhile (· != '"') ≠ [] := fun heq => h (by rw [heq]; rfl)
      rw [takeWhile_append_of_dropWhile hclosed, dropWhile_append_of_dropWhile hclosed]
      obtain ⟨e, es, hes⟩ := List.exists_cons_of_ne_nil hclosed
      rw [hes]
      rfl
    · next hquote =>
      rw [if_neg hquote] at h
      split
      · next hletter =>
        rw [if_pos hletter] at h
        rw [takeWhile_append_of_dropWhile h, dropWhile_append_of_dropWhile h]
      · next hletter =>
        rw [if_neg hletter] at h
        split
        · next hdigit =>
          rw [if_pos hdigit] at h
          rw [takeWhile_append_of_dropWhile h, dropWhile_append_of_dropWhile h]
        · rfl

/-- What follows a lexeme may be `rest'` in place of `rest`: no character goes on with the lexeme that
did not before, and a lexeme that ran to the end still does. -/
structure MayFollow (rest rest' : List Char) : Prop where
  letter : Avoids isLetter rest → Avoids isLetter rest'
  digit : Avoids Char.isDigit rest → Avoids Char.isDigit rest'
  pair : ∀ c, rest.head?.bind (pairKind? c) = none → rest'.head?.bind (pairKind? c) = none
  nil : rest = [] → rest' = []

/-- **A lexeme depends on what follows it only in that nothing goes on with it.** -/
theorem Lexeme.read_of_mayFollow {c : Char} {cs text rest' : List Char}
    (htext : (Lexeme.read c cs).1.text = c :: text) (h : MayFollow (Lexeme.read c cs).2 rest') :
    Lexeme.read c (text ++ rest') = ((Lexeme.read c cs).1, rest') := by
  have hreads := Lexeme.reads c cs
  generalize Lexeme.read c cs = r at htext h hreads
  cases hreads with
  | @pair d ds k _ hk =>
    cases htext
    simp [Lexeme.read, hk]
  | symbol hpair hk =>
    cases htext
    simp only [Lexeme.read, List.nil_append, h.pair c hpair, hk]
  | string hquote =>
    cases htext
    subst hquote
    have hinner : ∀ d ∈ cs.takeWhile (· != '"'), (d != '"') = true :=
      List.all_eq_true.mp List.all_takeWhile
    have havoids := avoids_dropWhile (· != '"') cs
    rw [Lexeme.read_of_plain rfl, if_pos rfl, List.append_assoc]
    -- what comes after the text between the quotes: nothing, or the closing quote
    generalize cs.dropWhile (· != '"') = ds at h havoids
    have hclose : Avoids (· != '"') (ds.take 1 ++ rest') ∧
        (ds.take 1 ++ rest').take 1 = ds.take 1 ∧ (ds.take 1 ++ rest').drop 1 = rest' := by
      cases ds with
      | nil =>
        rw [h.nil rfl]
        exact ⟨havoids, rfl, rfl⟩
      | cons d ds =>
        have hd := avoids_cons.mp havoids
        exact ⟨avoids_cons.mpr hd, rfl, rfl⟩
    rw [takeWhile_append_of_avoids hinner hclose.1, dropWhile_append_of_avoids hinner hclose.1,
      hclose.2.1, hclose.2.2]
  | word hletter =>
    cases htext
    have hord := Ordinary.of_isLetter hletter
    have hall : ∀ d ∈ cs.takeWhile isLetter, isLetter d = true :=
      List.all_eq_true.mp List.all_takeWhile
    have hrest' := h.letter (avoids_dropWhile isLetter cs)
    rw [Lexeme.read_of_plain hord.symbol, if_neg hord.quote, if_pos hletter,
      takeWhile_append_of_avoids hall hrest', dropWhile_append_of_avoids hall hrest']
  | digits hdigit =>
    cases htext
    have hord := Ordinary.of_isDigit hdigit
    have hall : ∀ d ∈ cs.takeWhile Char.isDigit, d.isDigit = true :=
      List.all_eq_true.mp List.all_takeWhile
    have hrest' := h.digit (avoids_dropWhile Char.isDigit cs)
    rw [Lexeme.read_of_plain hord.symbol, if_neg hord.quote,
      if_neg (by simp [isLetter_of_isDigit hdigit]), if_pos hdigit,
      takeWhile_append_of_avoids hall hrest', dropWhile_append_of_avoids hall hrest']
  | illegal hsymbol hquote hletter hdigit =>
    cases htext
    rw [List.nil_append, Lexeme.read_of_plain hsymbol, if_neg hquote, if_neg (by simp [hletter]),
      if_neg (by simp [hdigit])]

/-! ## All tokens of a text -/

theorem Scans.blanks {cs : List Char} (h : ∀ c ∈ cs, isBlank c = true) (rest : List Char) :
    Scans (cs ++ rest) [] rest := by
  induction cs with
  | nil => exact .refl rest
  | cons c cs ih =>
    exact .blank (h c List.mem_cons_self) (ih fun d hd => h d (List.mem_cons_of_mem _ hd))

namespace Scanner

/-- What is left is blanks, and then what comes behind them. -/
theorem rest_eq_blanks {s : Scanner} {cs : List Char} (h : s.rest.dropWhile isBlank = cs) :
    ∃ bs, s.rest = bs ++ cs ∧ ∀ b ∈ bs, isBlank b = true :=
  ⟨s.rest.takeWhile isBlank, by rw [← h, List.takeWhile_append_dropWhile],
    List.all_eq_true.mp List.all_takeWhile⟩

/-- **A text that ends with a semicolon has the same words whatever follows it.** -/
theorem scans_append {s : Scanner} (hlast : ∀ t ∈ s.tokens.getLast?, t.kind = .semicolon)
    (rest : List Char) : Scans (s.rest ++ rest) (s.tokens.map Token.word) rest := by
  induction s using tokens.induct with
  | case1 s h =>
    obtain ⟨bs, hbs, hblank⟩ := rest_eq_blanks h
    rw [tokens_of_nil h, hbs, List.append_nil]
    exact .blanks hblank rest
  | case2 s c cs h ih =>
    have hc : isBlank c = false := by
      have hhead := List.head?_dropWhile_not isBlank s.rest
      rw [h] at hhead
      simpa using hhead
    have hread : s.read.1.word =
        ((Lexeme.read c cs).1.kind, String.ofList (Lexeme.read c cs).1.literal) := by
      simp [read, h, Token.word]
    have hrest : s.read.2.rest = (Lexeme.read c cs).2 := by simp [read, h]
    rw [tokens_of_cons h] at hlast ⊢
    rw [List.getLast?_cons] at hlast
    obtain ⟨bs, hbs, hblank⟩ := rest_eq_blanks h
    -- a lexeme that reaches the end is the last token, hence a semicolon
    have hsame : Lexeme.read c (cs ++ rest) =
        ((Lexeme.read c cs).1, (Lexeme.read c cs).2 ++ rest) := by
      by_cases hnil : (Lexeme.read c cs).2 = []
      · rw [tokens_of_nil (s := s.read.2) (by rw [hrest, hnil]; rfl)] at hlast
        have hkind : (Lexeme.read c cs).1.kind = .semicolon :=
          (congrArg Prod.fst hread).symm.trans (hlast _ rfl)
        obtain rfl := Lexeme.eq_semicolon hkind
        rw [Lexeme.read_semicolon, Lexeme.read_semicolon]
      · exact Lexeme.read_append hnil rest
    have hlexeme := Scans.lexeme hc (cs ++ rest)
    rw [hsame, ← hread, ← hrest] at hlexeme
    have htail := ih fun t ht => hlast t (by rw [Option.mem_def.mp ht]; rfl)
    rw [hbs, List.append_assoc, List.map_cons]
    exact (Scans.blanks hblank _).trans (hlexeme.trans htail)

/-- Where a token is a semicolon, the text has one. -/
theorem semicolon_mem {s : Scanner} {t : Token} (ht : t ∈ s.tokens) (hkind : t.kind = .semicolon) :
    ';' ∈ s.rest := by
  induction s using tokens.induct with
  | case1 s h =>
    rw [tokens_of_nil h] at ht
    cases ht
  | case2 s c cs h ih =>
    have hsuffix : ∀ d ∈ c :: cs, d ∈ s.rest := by
      rw [← h]
      exact fun d hd => (List.dropWhile_sublist isBlank).subset hd
    rw [tokens_of_cons h] at ht
    rcases List.mem_cons.mp ht with rfl | ht
    · have hread : s.read.1.kind = (Lexeme.read c cs).1.kind := by simp [read, h]
      obtain rfl := Lexeme.eq_semicolon (hread.symm.trans hkind)
      exact hsuffix _ List.mem_cons_self
    · have hrest : s.read.2.rest = (Lexeme.read c cs).2 := by simp [read, h]
      refine hsuffix _ ?_
      rw [← Lexeme.text_append_rest, ← hrest]
      exact List.mem_append_right _ (ih ht)

end Scanner

end ClosureLang
