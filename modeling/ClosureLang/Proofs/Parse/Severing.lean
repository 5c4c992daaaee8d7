import ClosureLang.Proofs.Parse.Blotting

/-!
# When a blotted operand is reported once

A blotted operand that is not shielded leaves operators behind that are not read with it. A construct
that wants a token of its own behind the expression finds an operator instead, and reports it. A
statement wants none, so the operators and what follows them are read as further statements. The blot
is all that is reported, then, if these can stand by themselves: if the source parses with a
statement, `0;`, in place of the operand (`blotted_operand_reported_once_iff`).

The severed source and the blotted one are read abreast (`Spot.Abreast`) and part where an expression
starts on the spot (`Spot.Parted`). The end of a statement brings them together again. Whatever else
comes there is reported in both (`Spot.Spoiled`), and from then on nothing has to agree any more,
since reports stay.
-/

namespace ClosureLang

open Grammar

/-! ## A severed source and a blotted one -/

namespace TokenKind

variable {k : TokenKind}

/-- The kinds of tokens that stand behind expressions inside a statement and follow no operand. -/
def isInner (k : TokenKind) : Bool := k.isFrame && k.follow?.isNone && k != .semicolon

theorem isFrame_of_isInner (h : k.isInner = true) : k.isFrame = true := by
  simp only [isInner, Bool.and_eq_true] at h
  exact h.1.1

theorem isOperator_of_lead? {op : UnaryOp} (h : k.lead? = some (.unary op)) :
    k.isOperator = true := by
  cases k <;> cases h <;> rfl

theorem isOperator_of_follow? {op : BinaryOp} (h : k.follow? = some (.operation op)) :
    k.isOperator = true := by
  cases k <;> cases h <;> rfl

end TokenKind

namespace Spot

variable (b : Spot) (s : String)

/-- The words of the severed source from the spot on. -/
def severed : List Word := (.int, "0") :: (.semicolon, ";") :: b.after.map Token.word

/-- The words of the blotted source from the spot on. -/
def blotted : List Word := (.illegal, s) :: b.after.map Token.word

/-- The cursor stands on the spot of the severed source. -/
def Facing (p : Cursor) : Prop := p.tokens.map Token.word = b.severed

/-- Tokens of the kinds `done` are read in both sources, with as many reports, and the spot is still
to come. -/
def Before (done : List TokenKind) (p p' : Cursor) : Prop :=
  ∃ pre : List Token, b.before.map Token.kind = done ++ pre.map Token.kind ∧
    p.tokens.map Token.word = pre.map Token.word ++ b.severed ∧
    p'.tokens.map Token.word = pre.map Token.word ++ b.blotted s ∧
    p'.reports.size = p.reports.size

/-- The blotted source has one report more, which is the one on the spot if it is the only one. -/
def Reported (p p' : Cursor) : Prop :=
  p'.reports.size = p.reports.size + 1 ∧
    (p.reports.size = 0 → p'.diagnostics = [.noOperand .illegal])

/-- The spot is read in both sources. -/
structure Behind (p p' : Cursor) : Prop where
  suffix : p.tokens.map Token.word <:+ b.after.map Token.word
  words : p'.tokens.map Token.word = p.tokens.map Token.word
  reported : Reported p p'

/-- Two cursors at the same place of the severed source and of the blotted one. -/
def Abreast (p p' : Cursor) : Prop := (∃ done, b.Before s done p p') ∨ b.Behind p p'

/-- Both cursors stand on the last token of a construct. -/
def Over (q q' : Cursor) : Prop := b.Abreast s q.advance q'.advance

/-- An expression that starts on the spot is over: the severed source comes to the semicolon, and the
blotted one to what follows the spot. -/
structure Parted (q q' : Cursor) : Prop where
  severed : b.Facing q
  blotted : q'.tokens.map Token.word = b.blotted s
  reported : Reported q q'

/-- Both cursors stand on the last token of a construct, or an expression that starts on the spot is
over. -/
def Stopped (q q' : Cursor) : Prop := b.Over s q q' ∨ b.Parted s q q'

/-- Something else is reported in both sources. -/
def Spoiled (p p' : Cursor) : Prop := 1 ≤ p.reports.size ∧ 2 ≤ p'.reports.size

variable {b s} {p p' q q' : Cursor} {done : List TokenKind}

theorem Facing.current_word (h : b.Facing p) : p.current.word = (.int, "0") := by
  rw [Cursor.word_current, h]
  rfl

theorem Facing.current_kind (h : b.Facing p) : p.current.kind = .int :=
  congrArg Prod.fst h.current_word

theorem Facing.peek_kind (h : b.Facing p) : p.peek.kind = .semicolon := by
  have hword := p.advance.word_current
  rw [Cursor.tokens_advance, List.map_tail, h] at hword
  exact congrArg Prod.fst hword

theorem not_facing_of_kind {k : TokenKind} (h : p.current.kind = k) (hk : k ≠ .int) :
    ¬ b.Facing p :=
  fun hat => hk (h.symm.trans hat.current_kind)

/-- Behind the spot the severed source has fewer tokens left than on it. -/
theorem Behind.not_facing (h : b.Behind p p') : ¬ b.Facing p := by
  intro hat
  have hlength := h.suffix.length_le
  rw [hat] at hlength
  simp only [Spot.severed, List.length_cons] at hlength
  omega

theorem Behind.advance (h : b.Behind p p') : b.Behind p.advance p'.advance := by
  refine ⟨?_, ?_, h.reported⟩
  · rw [Cursor.tokens_advance, List.map_tail]
    exact (List.tail_suffix _).trans h.suffix
  · rw [Cursor.tokens_advance, List.map_tail, h.words, Cursor.tokens_advance, List.map_tail]

namespace Before

/-- A token before the spot is read in both sources. -/
theorem step (h : b.Before s done p p') (hat : ¬ b.Facing p) :
    b.Before s (done ++ [p.current.kind]) p.advance p'.advance := by
  obtain ⟨pre, hbefore, hsevered, hblotted, hsize⟩ := h
  cases pre with
  | nil => exact absurd hsevered hat
  | cons t pre =>
    have hkind : p.current.kind = t.kind := by
      have hword := p.word_current
      rw [hsevered] at hword
      exact congrArg Prod.fst hword
    refine ⟨pre, ?_, ?_, ?_, hsize⟩
    · rw [hbefore, hkind, List.append_assoc]
      rfl
    · rw [Cursor.tokens_advance, List.map_tail, hsevered]
      rfl
    · rw [Cursor.tokens_advance, List.map_tail, hblotted]
      rfl

/-- On the spot, all that stands before it is read. -/
theorem eq_before (h : b.Before s done p p') (hat : b.Facing p) :
    done = b.before.map Token.kind ∧ p'.tokens.map Token.word = b.blotted s := by
  obtain ⟨pre, hbefore, hsevered, hblotted, hsize⟩ := h
  have hlength := congrArg List.length (hat.symm.trans hsevered)
  rw [List.length_append, List.length_map] at hlength
  have hpre : pre = [] := List.eq_nil_of_length_eq_zero (by omega)
  rw [hpre] at hbefore hblotted
  exact ⟨by rw [hbefore]; simp, hblotted⟩

theorem current_word (h : b.Before s done p p') (hat : ¬ b.Facing p) :
    p'.current.word = p.current.word := by
  obtain ⟨pre, -, hsevered, hblotted, -⟩ := h
  cases pre with
  | nil => exact absurd hsevered hat
  | cons t pre =>
    rw [Cursor.word_current, Cursor.word_current, hsevered, hblotted]
    rfl

end Before

namespace Abreast

theorem current_word (h : b.Abreast s p p') (hat : ¬ b.Facing p) :
    p'.current.word = p.current.word := by
  rcases h with ⟨done, hbefore⟩ | hbehind
  · exact hbefore.current_word hat
  · rw [Cursor.word_current, Cursor.word_current, hbehind.words]

theorem current_kind (h : b.Abreast s p p') (hat : ¬ b.Facing p) :
    p'.current.kind = p.current.kind :=
  congrArg Prod.fst (h.current_word hat)

/-- On the spot the blotted source has its blot, and as many reports. -/
theorem words_of_facing (h : b.Abreast s p p') (hat : b.Facing p) :
    p'.tokens.map Token.word = b.blotted s ∧ p'.reports.size = p.reports.size := by
  rcases h with ⟨done, hbefore⟩ | hbehind
  · obtain ⟨pre, -, -, -, hsize⟩ := id hbefore
    exact ⟨(hbefore.eq_before hat).2, hsize⟩
  · exact absurd hat hbehind.not_facing

/-- The blot is illegal. -/
theorem kind_of_facing (h : b.Abreast s p p') (hat : b.Facing p) : p'.current.kind = .illegal := by
  have hword := p'.word_current
  rw [(h.words_of_facing hat).1] at hword
  exact congrArg Prod.fst hword

theorem sameKind (h : b.Abreast s p p') : p.current.kind.SameKind p'.current.kind := by
  by_cases hat : b.Facing p
  · refine Or.inr ⟨?_, h.kind_of_facing hat⟩
    rw [hat.current_kind]
    rfl
  · exact Or.inl (h.current_kind hat)

/-- Both cursors stand on a name or none does. -/
theorem ident_iff (h : b.Abreast s p p') : p'.current.kind = .ident ↔ p.current.kind = .ident := by
  by_cases hat : b.Facing p
  · rw [hat.current_kind, h.kind_of_facing hat]
    decide
  · rw [h.current_kind hat]

/-- Off the spot both sources move on by the same token. -/
theorem advance (h : b.Abreast s p p') (hat : ¬ b.Facing p) : b.Abreast s p.advance p'.advance := by
  rcases h with ⟨done, hbefore⟩ | hbehind
  · exact Or.inl ⟨_, hbefore.step hat⟩
  · exact Or.inr hbehind.advance

/-- One report more in both sources. -/
theorem grow {r r' : Cursor} (h : b.Abreast s p p') (htokens : r.tokens = p.tokens)
    (htokens' : r'.tokens = p'.tokens) (hsize : r.reports.size = p.reports.size + 1)
    (hsize' : r'.reports.size = p'.reports.size + 1) : b.Abreast s r r' := by
  rcases h with ⟨done, hbefore⟩ | hbehind
  · left
    unfold Before at hbefore ⊢
    rw [htokens, htokens', hsize, hsize', Nat.add_right_cancel_iff]
    exact ⟨done, hbefore⟩
  · obtain ⟨hsuffix, hwords, hreported, -⟩ := hbehind
    refine Or.inr ⟨by rw [htokens]; exact hsuffix, by rw [htokens, htokens', hwords], ?_, ?_⟩
    · rw [hsize, hsize', hreported]
    · intro hzero
      rw [hzero] at hsize
      cases hsize

/-- No spot comes directly behind an operator, unless it is shielded. -/
theorem not_facing_advance (h : b.Abreast s p p') (hb : ¬ b.Shielded)
    (hk : p.current.kind.isOperator = true) : ¬ b.Facing p.advance := by
  intro hnext
  have hat : ¬ b.Facing p := fun hat => by
    rw [hat.current_kind] at hk
    cases hk
  rcases h with ⟨done, hbefore⟩ | hbehind
  · have hlast : b.before.getLast?.map Token.kind = some p.current.kind := by
      rw [← List.getLast?_map, ← ((hbefore.step hat).eq_before hnext).1, List.getLast?_concat]
    obtain ⟨t, ht, hkind⟩ := Option.map_eq_some_iff.mp hlast
    exact hb (Or.inl ⟨t, ht, by rw [hkind, hk]⟩)
  · exact hbehind.advance.not_facing hnext

end Abreast

namespace Over

theorem sameKind (h : b.Over s q q') : q.peek.kind.SameKind q'.peek.kind := Abreast.sameKind h

/-- Punctuation comes next in the one source if it does in the other. -/
theorem peek_eq_iff (h : b.Over s q q') {k : TokenKind} (hk : k.isFrame = true) :
    q'.peek.kind = k ↔ q.peek.kind = k :=
  h.sameKind.eq_iff hk

theorem advance (h : b.Over s q q') {k : TokenKind} (hq : q.peek.kind = k) (hk : k ≠ .int) :
    b.Over s q.advance q'.advance :=
  Abreast.advance h (not_facing_of_kind (p := q.advance) hq hk)

theorem record (h : b.Over s q q') (d d' : Diagnostic) : b.Over s (q.record d) (q'.record d') :=
  Abreast.grow h rfl rfl (q.size_record d) (q'.size_record d')

theorem skipTerminator (h : b.Over s q q') : b.Over s q.skipTerminator q'.skipTerminator := by
  unfold Cursor.skipTerminator
  by_cases hq : q.peek.kind = .semicolon
  · rw [if_pos hq, if_pos ((h.peek_eq_iff rfl).mpr hq)]
    exact h.advance hq (by decide)
  · rw [if_neg hq, if_neg (mt (h.peek_eq_iff rfl).mp hq)]
    exact h

end Over

namespace Parted

/-- What comes next in the blotted source follows an operand. -/
theorem follow?_ne (h : b.Parted s q q') (hb : ¬ b.Shielded) : q'.peek.kind.follow? ≠ none := by
  have hpeek : q'.peek.kind = firstKind b.after := by
    have hword := q'.advance.word_current
    rw [Cursor.tokens_advance, List.map_tail, h.blotted] at hword
    have hkind : q'.peek.kind = _ := congrArg Prod.fst hword
    rw [hkind, Spot.blotted, List.tail_cons]
    cases b.after <;> rfl
  rw [hpeek]
  exact fun hfollow => hb (Or.inr hfollow)

/-- Where the sources part, no token of a construct around the expression comes next in either: the
severed source has its semicolon there, the blotted one what goes on with an operand. -/
theorem peek_ne (h : b.Parted s q q') (hb : ¬ b.Shielded) {k : TokenKind} (hk : k.isInner = true) :
    q.peek.kind ≠ k ∧ q'.peek.kind ≠ k := by
  simp only [TokenKind.isInner, Bool.and_eq_true, bne_iff_ne, Option.isNone_iff_eq_none] at hk
  refine ⟨fun he => hk.2 (he.symm.trans h.severed.peek_kind), ?_⟩
  rintro rfl
  exact h.follow?_ne hb hk.1.2

/-- A report at the parting spoils both sources. -/
theorem spoiled (h : b.Parted s q q') (d d' : Diagnostic) :
    Spoiled (q.record d) (q'.record d') := by
  have hsize := h.reported.1
  unfold Spoiled
  rw [Cursor.size_record, Cursor.size_record]
  omega

/-- A statement ends with the semicolon in the severed source and without one in the blotted one. -/
theorem isOver (h : b.Parted s q q') (hb : ¬ b.Shielded) :
    b.Over s q.skipTerminator q'.skipTerminator := by
  have hne : q'.peek.kind ≠ .semicolon := fun he => h.follow?_ne hb (by rw [he]; rfl)
  rw [Cursor.skipTerminator, Cursor.skipTerminator, if_pos h.severed.peek_kind, if_neg hne]
  have hafter : q.advance.advance.tokens.map Token.word = b.after.map Token.word := by
    rw [Cursor.tokens_advance, Cursor.tokens_advance, List.map_tail, List.map_tail, h.severed]
    rfl
  have hafter' : q'.advance.tokens.map Token.word = b.after.map Token.word := by
    rw [Cursor.tokens_advance, List.map_tail, h.blotted]
    rfl
  exact Or.inr ⟨⟨[], hafter⟩, hafter'.trans hafter.symm, h.reported⟩

end Parted

/-- Both cursors stand at the same place, which is not the spot. -/
def Clear (b : Spot) (s : String) (p p' : Cursor) : Prop := b.Abreast s p p' ∧ ¬ b.Facing p

namespace Clear

theorem isOver (h : b.Clear s p p') : b.Over s p p' := h.1.advance h.2

theorem current_literal (h : b.Clear s p p') : p'.current.literal = p.current.literal :=
  congrArg Prod.snd (h.1.current_word h.2)

theorem next_of_isOperator (h : b.Clear s p p') (hb : ¬ b.Shielded)
    (hk : p.current.kind.isOperator = true) : b.Clear s p.advance p'.advance :=
  ⟨h.isOver, h.1.not_facing_advance hb hk⟩

end Clear

/-- Names at `p` and `p'` are those of a parameter. -/
def Listing (b : Spot) (s : String) (p p' : Cursor) : Prop :=
  (∃ done, b.Before s done p p' ∧ inParameters done.reverse = true) ∨ b.Behind p p'

namespace Listing

theorem abreast (h : b.Listing s p p') : b.Abreast s p p' :=
  h.imp_left fun ⟨done, hbefore, _⟩ => ⟨done, hbefore⟩

/-- The spot is not the name of a parameter. -/
theorem not_facing (h : b.Listing s p p') : ¬ b.Facing p := by
  intro hat
  rcases h with ⟨done, hbefore, hlisted⟩ | hbehind
  · have hbinds := binds_of_inParameters hlisted
    rw [(hbefore.eq_before hat).1, b.unbound] at hbinds
    cases hbinds
  · exact hbehind.not_facing hat

/-- Behind a name and a comma comes another name. -/
theorem next (h : b.Listing s p p') (hident : p.current.kind = .ident)
    (hcomma : p.peek.kind = .comma) : b.Listing s p.advance.advance p'.advance.advance := by
  have hnext : ¬ b.Facing p.advance := not_facing_of_kind (p := p.advance) hcomma (by decide)
  rcases h with ⟨done, hbefore, hlisted⟩ | hbehind
  · refine Or.inl ⟨_, (hbefore.step (not_facing_of_kind hident (by decide))).step hnext, ?_⟩
    rw [List.reverse_append, List.reverse_append]
    show inParameters (p.peek.kind :: p.current.kind :: done.reverse) = true
    rw [hcomma, hident, inParameters, hlisted]
  · exact Or.inr hbehind.advance.advance

end Listing

/-- Behind the parenthesis of a function literal comes the name of a parameter. -/
theorem Clear.listing (h : b.Clear s p p') (hfn : p.current.kind = .fnWord)
    (hopen : p.peek.kind = .lparen) : b.Listing s p.advance.advance p'.advance.advance := by
  have hnext : ¬ b.Facing p.advance := not_facing_of_kind (p := p.advance) hopen (by decide)
  rcases h.1 with ⟨done, hbefore⟩ | hbehind
  · refine Or.inl ⟨_, (hbefore.step h.2).step hnext, ?_⟩
    rw [List.reverse_append, List.reverse_append]
    show inParameters (p.peek.kind :: p.current.kind :: done.reverse) = true
    rw [hopen, hfn, inParameters]
  · exact Or.inr hbehind.advance.advance

end Spot

/-! ## Two runs -/

namespace Production

open Cursor Spot

/-- Two runs end as `R` says, or something else is reported in both. -/
def Near (R : Cursor → Cursor → Prop) (q q' : Cursor) : Prop := R q q' ∨ Spoiled q q'

/-- What two bounded productions do that start at `p` and `p'`: they end as `R` says, or something
else is reported in both, and reports that are there stay. -/
structure Both {α : Type} (p p' : Cursor) (R : Cursor → Cursor → Prop)
    (m m' : Option (α × Cursor)) : Prop where
  left : ∀ {a q}, 1 ≤ p.reports.size → m = some (a, q) → 1 ≤ q.reports.size
  right : ∀ {a q}, 2 ≤ p'.reports.size → m' = some (a, q) → 2 ≤ q.reports.size
  ends : ∀ {a q a' q'}, m = some (a, q) → m' = some (a', q') → Near R q q'

namespace Both

variable {α β : Type} {p p' q q' : Cursor} {P R : Cursor → Cursor → Prop} {b : Spot} {s : String}

theorem of_moving {m m' : Option (α × Cursor)} (hm : Moving p m) (hm' : Moving p' m')
    (h : ∀ {a q a' q'}, m = some (a, q) → m' = some (a', q') → Near R q q') :
    Both p p' R m m' where
  left := fun hp hq => Nat.le_trans hp (hm _ _ hq).size_le
  right := fun hp hq => Nat.le_trans hp (hm' _ _ hq).size_le
  ends := h

/-- If something else is reported already, only the reports count. -/
theorem of_near {m m' : Option (α × Cursor)} (hm : Moving p m) (hm' : Moving p' m')
    (hp : Near P p p') (h : P p p' → Both p p' R m m') : Both p p' R m m' := by
  rcases hp with hlive | ⟨hp, hp'⟩
  · exact h hlive
  · exact of_moving hm hm' fun hq hq' =>
      Or.inr ⟨Nat.le_trans hp (hm _ _ hq).size_le, Nat.le_trans hp' (hm' _ _ hq').size_le⟩

theorem of_some {a a' : α} (hq : p.Moves q) (hq' : p'.Moves q') (h : Near R q q') :
    Both p p' R (some (a, q)) (some (a', q')) := by
  refine of_moving (Moving.of_some hq) (Moving.of_some hq') fun ha ha' => ?_
  cases ha
  cases ha'
  exact h

theorem of_none : Both p p' R (none : Option (α × Cursor)) none :=
  of_moving Moving.of_none Moving.of_none fun h => by cases h

theorem advance {m m' : Option (α × Cursor)} (h : Both p.advance p'.advance R m m') :
    Both p p' R m m' :=
  ⟨h.left, h.right, h.ends⟩

theorem mono {m m' : Option (α × Cursor)} (h : Both p p' P m m') (hPR : ∀ q q', P q q' → R q q') :
    Both p p' R m m' :=
  ⟨h.left, h.right, fun hq hq' => (h.ends hq hq').imp_left (hPR _ _)⟩

/-- Productions in a row: the second ones start where the first ones have left the sources. -/
theorem bind {m m' : Option (α × Cursor)} {f f' : α × Cursor → Option (β × Cursor)}
    (h : Both p p' P m m')
    (hf : ∀ a r a' r', Near P r r' → Both r r' R (f (a, r)) (f' (a', r'))) :
    Both p p' R (m >>= f) (m' >>= f') where
  left := by
    intro c q hp hq
    obtain ⟨⟨a, r⟩, ha, hq⟩ := Option.bind_eq_some_iff.mp hq
    have hr := h.left hp ha
    -- any cursor with two reports will do for the other run
    have hspoiled : Spoiled r (r.record (.noOperand .eof)) := by
      refine ⟨hr, ?_⟩
      rw [size_record]
      omega
    exact (hf a r a _ (Or.inr hspoiled)).left hr hq
  right := by
    intro c q hp hq
    obtain ⟨⟨a, r⟩, ha, hq⟩ := Option.bind_eq_some_iff.mp hq
    have hr := h.right hp ha
    exact (hf a r a r (Or.inr ⟨by omega, hr⟩)).right hr hq
  ends := by
    intro c q c' q' hq hq'
    obtain ⟨⟨a, r⟩, ha, hq⟩ := Option.bind_eq_some_iff.mp hq
    obtain ⟨⟨a', r'⟩, ha', hq'⟩ := Option.bind_eq_some_iff.mp hq'
    exact (hf a r a' r' (h.ends ha ha')).ends hq hq'

/-- Both runs find a wanted token, or neither does. -/
theorem expect_over {k : TokenKind} {yes yes' : Cursor → Option (Option β × Cursor)}
    (hp : b.Over s p p') (hiff : p'.peek.kind = k ↔ p.peek.kind = k) (hk : k ≠ .int)
    (hno : ∀ q q', b.Over s q q' → R q q')
    (hyes : p.peek.kind = k → b.Over s p.advance p'.advance →
      Both p.advance p'.advance R (yes p.advance) (yes' p'.advance)) :
    Both p p' R
      (match p.expect k with
        | (false, q) => some (none, q)
        | (true, q) => yes q)
      (match p'.expect k with
        | (false, q) => some (none, q)
        | (true, q) => yes' q) := by
  rcases p.expect_cases k with ⟨hpeek, he⟩ | ⟨hpeek, he⟩ <;>
    rcases p'.expect_cases k with ⟨hpeek', he'⟩ | ⟨hpeek', he'⟩ <;> rw [he, he']
  · exact (hyes hpeek (hp.advance hpeek hk)).advance
  · exact absurd (hiff.mpr hpeek) hpeek'
  · exact absurd (hiff.mp hpeek') hpeek
  · exact of_some ((Moves.refl p).record _) ((Moves.refl p').record _)
      (Or.inl (hno _ _ (hp.record _ _)))

theorem of_late {m m' : Option (α × Cursor)}
    (hleft : ∀ {a q}, m = some (a, q) → 1 ≤ q.reports.size)
    (hright : ∀ {a q}, m' = some (a, q) → 2 ≤ q.reports.size) : Both p p' R m m' :=
  ⟨fun _ => hleft, fun _ => hright, fun hq hq' => Or.inr ⟨hleft hq, hright hq'⟩⟩

/-- Where the two runs part neither finds the token that it wants. -/
theorem expect {k : TokenKind} {yes yes' : Cursor → Option (Option β × Cursor)}
    (hp : Near (b.Stopped s) p p') (hb : ¬ b.Shielded)
    (hk : k.isInner = true) (hno : ∀ q q', b.Over s q q' → R q q')
    (hyes : Near (b.Over s) p.advance p'.advance →
      Both p.advance p'.advance R (yes p.advance) (yes' p'.advance)) :
    Both p p' R
      (match p.expect k with
        | (false, q) => some (none, q)
        | (true, q) => yes q)
      (match p'.expect k with
        | (false, q) => some (none, q)
        | (true, q) => yes' q) := by
  rcases hp with (hover | hparted) | hspoiled
  · exact expect_over hover (hover.peek_eq_iff (TokenKind.isFrame_of_isInner hk))
      (by rintro rfl; cases hk) hno fun _ hnext => hyes (Or.inl hnext)
  · obtain ⟨hne, hne'⟩ := hparted.peek_ne hb hk
    rcases p.expect_cases k with ⟨hpeek, -⟩ | ⟨-, he⟩
    · exact absurd hpeek hne
    rcases p'.expect_cases k with ⟨hpeek, -⟩ | ⟨-, he'⟩
    · exact absurd hpeek hne'
    rw [he, he']
    exact of_some ((Moves.refl p).record _) ((Moves.refl p').record _)
      (Or.inr (hparted.spoiled _ _))
  · have hboth := hyes (Or.inr hspoiled)
    refine of_late (fun hq => ?_) fun hq => ?_
    · rcases p.expect_cases k with ⟨-, he⟩ | ⟨-, he⟩ <;> rw [he] at hq
      · exact hboth.left hspoiled.1 hq
      · cases hq
        rw [size_record]
        omega
    · rcases p'.expect_cases k with ⟨-, he⟩ | ⟨-, he⟩ <;> rw [he] at hq
      · exact hboth.right hspoiled.2 hq
      · cases hq
        have := hspoiled.2
        rw [size_record]
        omega

/-- Where the two runs part neither finds the token that makes the difference. -/
theorem ite {k : TokenKind} {m m' w w' : Option (α × Cursor)}
    (hp : Near (b.Stopped s) p p') (hb : ¬ b.Shielded) (hk : k.isInner = true)
    (hyes : Near (b.Over s) p.advance p'.advance → Both p p' R m m') (hno : Both p p' R w w') :
    Both p p' R (if p.peek.kind = k then m else w) (if p'.peek.kind = k then m' else w') := by
  rcases hp with (hover | hparted) | hspoiled
  · have hiff := hover.peek_eq_iff (TokenKind.isFrame_of_isInner hk)
    by_cases hpeek : p.peek.kind = k
    · rw [if_pos hpeek, if_pos (hiff.mpr hpeek)]
      exact hyes (Or.inl (hover.advance hpeek (by rintro rfl; cases hk)))
    · rw [if_neg hpeek, if_neg (mt hiff.mp hpeek)]
      exact hno
  · obtain ⟨hne, hne'⟩ := hparted.peek_ne hb hk
    rw [if_neg hne, if_neg hne']
    exact hno
  · have hboth := hyes (Or.inr hspoiled)
    refine of_late (fun hq => ?_) fun hq => ?_
    · split at hq
      · exact hboth.left hspoiled.1 hq
      · exact hno.left hspoiled.1 hq
    · split at hq
      · exact hboth.right hspoiled.2 hq
      · exact hno.right hspoiled.2 hq

end Both

variable {b : Spot} {s : String}

/-! ## Names that are bound -/

/-- Names are read in both sources or in neither. -/
theorem none_or_some_of_isSome_eq {x x' : Option (List String)} (h : x'.isSome = x.isSome) :
    x = none ∧ x' = none ∨ ∃ ns ns', x = some ns ∧ x' = some ns' := by
  cases x <;> cases x' <;> simp_all

theorem names_over {n : Nat} {p p' q q' : Cursor} {x x' : Option (List String)}
    (hp : b.Listing s p p') (h : names n p = some (x, q)) (h' : names n p' = some (x', q')) :
    b.Over s q q' ∧ x'.isSome = x.isSome := by
  induction n generalizing p p' x x' with
  | zero => cases h
  | succ n ih =>
    have hover : b.Over s p p' := hp.abreast.advance hp.not_facing
    rw [names] at h h'
    rw [hp.abreast.current_kind hp.not_facing] at h'
    split at h
    · next hident =>
      rw [if_pos hident] at h'
      split at h
      · next hcomma =>
        rw [if_pos ((hover.peek_eq_iff rfl).mpr hcomma)] at h'
        obtain ⟨⟨rest, r⟩, hrest, h⟩ := Option.bind_eq_some_iff.mp h
        obtain ⟨⟨rest', r'⟩, hrest', h'⟩ := Option.bind_eq_some_iff.mp h'
        cases h
        cases h'
        obtain ⟨hended, hsome⟩ := ih (hp.next hident hcomma) hrest hrest'
        exact ⟨hended, by rw [Option.isSome_map, Option.isSome_map, hsome]⟩
      · next hcomma =>
        rw [if_neg (mt (hover.peek_eq_iff rfl).mp hcomma)] at h'
        cases h
        cases h'
        exact ⟨hover, rfl⟩
    · next hident =>
      rw [if_neg hident] at h'
      cases h
      cases h'
      exact ⟨hover.record _ _, rfl⟩

theorem parameters_over {n : Nat} {p p' q q' : Cursor} {x x' : Option (List String)}
    (hp : b.Over s p p') (hnames : b.Listing s p.advance p'.advance)
    (h : parameters n p = some (x, q)) (h' : parameters n p' = some (x', q')) :
    b.Over s q q' ∧ x'.isSome = x.isSome := by
  have hclose := hp.peek_eq_iff (k := .rparen) rfl
  rw [parameters] at h h'
  split at h
  · next hrparen =>
    rw [if_pos (hclose.mpr hrparen)] at h'
    cases h
    cases h'
    exact ⟨hp.advance hrparen (by decide), rfl⟩
  · next hrparen =>
    rw [if_neg (mt hclose.mp hrparen)] at h'
    obtain ⟨⟨params, r⟩, hparams, h⟩ := Option.bind_eq_some_iff.mp h
    obtain ⟨⟨params', r'⟩, hparams', h'⟩ := Option.bind_eq_some_iff.mp h'
    obtain ⟨hover, hsome⟩ := names_over hnames hparams hparams'
    rcases none_or_some_of_isSome_eq hsome with ⟨rfl, rfl⟩ | ⟨params, params', rfl, rfl⟩
    · cases h
      cases h'
      exact ⟨hover, rfl⟩
    · have hiff := hover.peek_eq_iff (k := .rparen) rfl
      rcases r.expect_cases .rparen with ⟨hpeek, he⟩ | ⟨hpeek, he⟩ <;>
        rcases r'.expect_cases .rparen with ⟨hpeek', he'⟩ | ⟨hpeek', he'⟩ <;>
        simp only [he] at h <;> simp only [he'] at h' <;> cases h <;> cases h'
      · exact ⟨hover.advance hpeek (by decide), rfl⟩
      · exact absurd (hiff.mpr hpeek) hpeek'
      · exact absurd (hiff.mp hpeek') hpeek
      · exact ⟨hover.record _ _, rfl⟩

/-! ## All productions -/

/-- What the productions that may go `n` calls deep do in a severed source and in a blotted one. -/
structure AllAbreast (b : Spot) (s : String) (n : Nat) : Prop where
  expression : ∀ {min p p'}, Near (b.Clear s) p p' →
    Both p p' (b.Over s) (expression n min p) (expression n min p')
  operand : ∀ {lead p p'}, b.Clear s p p' → p.current.kind.lead? = some lead →
    Both p p' (b.Over s) (operand n lead p) (operand n lead p')
  operators : ∀ {min left left' p p'}, Near (b.Over s) p p' →
    Both p p' (b.Over s) (operators n min left p) (operators n min left' p')
  extend : ∀ {follow left left' p p'}, b.Clear s p p' → p.current.kind.follow? = some follow →
    Both p p' (b.Over s) (extend n follow left p) (extend n follow left' p')
  elements : ∀ {close p p'}, b.Over s p p' → close.isInner = true →
    Both p p' (b.Over s) (elements n close p) (elements n close p')
  moreElements : ∀ {p p'}, Near (b.Stopped s) p p' →
    Both p p' (b.Stopped s) (moreElements n p) (moreElements n p')
  pairs : ∀ {p p'}, Near (b.Over s) p p' → Both p p' (b.Over s) (pairs n p) (pairs n p')
  conditional : ∀ {p p'}, b.Over s p p' →
    Both p p' (b.Over s) (conditional n p) (conditional n p')
  function : ∀ {p p'}, b.Clear s p p' → p.current.kind = .fnWord →
    Both p p' (b.Over s) (function n p) (function n p')
  statements : ∀ {inBlock p p'}, Near (b.Abreast s) p p' →
    Both p p' (b.Over s) (statements n inBlock p) (statements n inBlock p')
  statement : ∀ {p p'}, Near (b.Abreast s) p p' →
    Both p p' (b.Over s) (statement n p) (statement n p')

/-- In the severed source the number is all of an expression that starts on the spot. -/
theorem eq_of_facing {n : Nat} {min : Precedence} {p q : Cursor} {x : Option (Expr Unit)}
    (hat : b.Facing p) (h : expression n min p = some (x, q)) : q = p := by
  cases n with
  | zero => cases h
  | succ n =>
    rw [expression, hat.current_kind] at h
    obtain ⟨⟨left, r⟩, hleft, hrest⟩ := Option.bind_eq_some_iff.mp h
    have hr : r = p := by
      cases n with
      | zero => cases hleft
      | succ n =>
        have hliteral : p.current.literal = "0" := congrArg Prod.snd hat.current_word
        have hzero : readInteger? "0" = some 0 := by decide
        rw [operand, hliteral, hzero] at hleft
        cases hleft
        rfl
    subst hr
    exact operators_of_follow (by rw [hat.peek_kind]; rfl) hrest

namespace AllAbreast

variable {n : Nat} {p p' : Cursor}

/-- An expression may start on the spot. -/
theorem start (ih : AllAbreast b s n) {min : Precedence} (hp : Near (b.Abreast s) p p') :
    Both p p' (b.Stopped s) (Production.expression n min p) (Production.expression n min p') := by
  have hmoves := Production.moves n
  refine .of_near (hmoves.expression _ _) (hmoves.expression _ _) hp fun hp => ?_
  by_cases hat : b.Facing p
  · refine .of_moving (hmoves.expression _ _) (hmoves.expression _ _) fun h h' => ?_
    obtain ⟨hwords, hsize⟩ := hp.words_of_facing hat
    cases n with
    | zero => cases h
    | succ n =>
      rw [Production.expression, hp.kind_of_facing hat] at h'
      cases h'
      cases eq_of_facing hat h
      refine Or.inl (Or.inr ⟨hat, hwords, ?_, fun hzero => ?_⟩)
      · rw [size_record, hsize]
      · rw [hzero] at hsize
        rw [diagnostics_record, diagnostics, Array.eq_empty_of_size_eq_zero hsize]
        rfl
  · exact (ih.expression (Or.inl ⟨hp, hat⟩)).mono fun _ _ => Or.inl

theorem expression_succ (ih : AllAbreast b s n) {min : Precedence} (hp : Near (b.Clear s) p p') :
    Both p p' (b.Over s) (Production.expression (n + 1) min p)
      (Production.expression (n + 1) min p') := by
  have hmoves := Production.moves (n + 1)
  refine .of_near (hmoves.expression _ _) (hmoves.expression _ _) hp fun hp => ?_
  rw [Production.expression, Production.expression, hp.1.current_kind hp.2]
  split
  · exact .of_some ((Moves.refl p).record _) ((Moves.refl p').record _)
      (Or.inl (hp.isOver.record _ _))
  · next hlead => exact .bind (ih.operand hp hlead) fun _ _ _ _ hr => ih.operators hr

theorem operand_succ (ih : AllAbreast b s n) (hb : ¬ b.Shielded) {lead : Lead}
    (hp : b.Clear s p p') (hlead : p.current.kind.lead? = some lead) :
    Both p p' (b.Over s) (Production.operand (n + 1) lead p)
      (Production.operand (n + 1) lead p') := by
  have hrefl := Moves.refl p
  have hrefl' := Moves.refl p'
  have hover := Or.inl (b := Spoiled p p') hp.isOver
  cases lead <;> rw [Production.operand, Production.operand]
  case name => exact .of_some hrefl hrefl' hover
  case integer =>
    rw [hp.current_literal]
    split
    · exact .of_some hrefl hrefl' hover
    · exact .of_some (hrefl.record _) (hrefl'.record _) (Or.inl (hp.isOver.record _ _))
  case text => exact .of_some hrefl hrefl' hover
  case truth => exact .of_some hrefl hrefl' hover
  case unary op =>
    have hnext := hp.next_of_isOperator hb (TokenKind.isOperator_of_lead? hlead)
    exact .bind (ih.expression (Or.inl hnext)).advance fun _ r _ r' hr =>
      .of_some (.refl r) (.refl r') hr
  case group =>
    refine .bind (ih.start hover).advance fun _ r _ r' hr => ?_
    exact .expect hr hb rfl (fun _ _ h => h) fun hs => .of_some (.refl _) (.refl _) hs
  case array =>
    exact .bind (ih.elements hp.isOver rfl) fun _ r _ r' hr => .of_some (.refl r) (.refl r') hr
  case hash =>
    exact .bind (ih.pairs hover) fun _ r _ r' hr => .of_some (.refl r) (.refl r') hr
  case conditional => exact ih.conditional hp.isOver
  case function => exact ih.function hp (kind_of_lead? hlead)

/-- The next tokens are the same up to the blot, so the loop goes on in both sources or stops in
both. -/
theorem operators_succ (ih : AllAbreast b s n) {min : Precedence} {left left' : Option (Expr Unit)}
    (hp : Near (b.Over s) p p') :
    Both p p' (b.Over s) (Production.operators (n + 1) min left p)
      (Production.operators (n + 1) min left' p') := by
  have hmoves := Production.moves (n + 1)
  refine .of_near (hmoves.operators _ _ _) (hmoves.operators _ _ _) hp fun hp => ?_
  rw [Production.operators, Production.operators, hp.sameKind.precedence_eq,
    hp.sameKind.follow?_eq]
  split
  · split
    · exact .of_some (.refl p) (.refl p') (Or.inl hp)
    · next hfollow =>
      have hat : ¬ b.Facing p.advance := fun hat => by
        rw [show p.peek.kind = .int from hat.current_kind] at hfollow
        cases hfollow
      exact .bind (ih.extend ⟨hp, hat⟩ hfollow).advance fun _ _ _ _ hr => ih.operators hr
  · exact .of_some (.refl p) (.refl p') (Or.inl hp)

theorem extend_succ (ih : AllAbreast b s n) (hb : ¬ b.Shielded) {follow : Follow}
    {left left' : Option (Expr Unit)} (hp : b.Clear s p p')
    (hfollow : p.current.kind.follow? = some follow) :
    Both p p' (b.Over s) (Production.extend (n + 1) follow left p)
      (Production.extend (n + 1) follow left' p') := by
  cases follow <;> rw [Production.extend, Production.extend]
  case operation op =>
    have hnext := hp.next_of_isOperator hb (TokenKind.isOperator_of_follow? hfollow)
    rw [hp.1.current_kind hp.2]
    exact .bind (ih.expression (Or.inl hnext)).advance fun _ r _ r' hr =>
      .of_some (.refl r) (.refl r') hr
  case call =>
    exact .bind (ih.elements hp.isOver rfl) fun _ r _ r' hr => .of_some (.refl r) (.refl r') hr
  case index =>
    refine .bind (ih.start (Or.inl hp.isOver)).advance fun _ r _ r' hr => ?_
    exact .expect hr hb rfl (fun _ _ h => h) fun hs => .of_some (.refl _) (.refl _) hs

theorem elements_succ (ih : AllAbreast b s n) (hb : ¬ b.Shielded) {close : TokenKind}
    (hp : b.Over s p p') (hclose : close.isInner = true) :
    Both p p' (b.Over s) (Production.elements (n + 1) close p)
      (Production.elements (n + 1) close p') := by
  rw [Production.elements, Production.elements]
  refine .ite (Or.inl (Or.inl hp)) hb hclose (fun hq => ?_) ?_
  · exact .of_some (Moves.refl p).advance (Moves.refl p').advance hq
  · refine .bind (ih.start (Or.inl hp)).advance fun _ r _ r' hr => ?_
    refine .bind (ih.moreElements hr) fun _ u _ u' hu => ?_
    exact .expect hu hb hclose (fun _ _ h => h) fun hs => .of_some (.refl _) (.refl _) hs

theorem moreElements_succ (ih : AllAbreast b s n) (hb : ¬ b.Shielded)
    (hp : Near (b.Stopped s) p p') :
    Both p p' (b.Stopped s) (Production.moreElements (n + 1) p)
      (Production.moreElements (n + 1) p') := by
  rw [Production.moreElements, Production.moreElements]
  refine .ite hp hb rfl (fun hq => ?_) (.of_some (.refl p) (.refl p') hp)
  refine .bind (ih.start hq).advance.advance fun _ r _ r' hr => ?_
  exact .bind (ih.moreElements hr) fun _ u _ u' hu => .of_some (.refl u) (.refl u') hu

theorem pairs_succ (ih : AllAbreast b s n) (hb : ¬ b.Shielded) (hp : Near (b.Over s) p p') :
    Both p p' (b.Over s) (Production.pairs (n + 1) p) (Production.pairs (n + 1) p') := by
  rw [Production.pairs, Production.pairs]
  refine .ite (hp.imp_left Or.inl) hb rfl (fun hq => ?_) ?_
  · exact .of_some (Moves.refl p).advance (Moves.refl p').advance hq
  · refine .bind (ih.start hp).advance fun _ r _ r' hr => ?_
    refine .expect hr hb rfl (fun _ _ h => h) fun hs => ?_
    refine .bind (ih.start hs).advance fun _ u _ u' hu => ?_
    refine .ite hu hb rfl (fun hv => ?_) ?_
    · exact .of_some (Moves.refl u).advance (Moves.refl u').advance hv
    · refine .expect hu hb rfl (fun _ _ h => h) fun hv => ?_
      exact .bind (ih.pairs hv) fun _ w _ w' hw => .of_some (.refl w) (.refl w') hw

theorem conditional_succ (ih : AllAbreast b s n) (hb : ¬ b.Shielded) (hp : b.Over s p p') :
    Both p p' (b.Over s) (Production.conditional (n + 1) p)
      (Production.conditional (n + 1) p') := by
  rw [Production.conditional, Production.conditional]
  refine .bind (ih.start (Or.inl hp)).advance fun _ r _ r' hr => ?_
  refine .expect hr hb rfl (fun _ _ h => h) fun hs => ?_
  refine .bind (ih.statements hs).advance fun _ u _ u' hu => ?_
  refine .ite (hu.imp_left Or.inl) hb rfl (fun hv => ?_) (.of_some (.refl u) (.refl u') hu)
  refine .advance (.expect (hv.imp_left Or.inl) hb rfl (fun _ _ h => h) fun hw => ?_)
  exact .bind (ih.statements hw).advance fun _ z _ z' hz => .of_some (.refl z) (.refl z') hz

theorem function_succ (ih : AllAbreast b s n) (hp : b.Clear s p p')
    (hfn : p.current.kind = .fnWord) :
    Both p p' (b.Over s) (Production.function (n + 1) p) (Production.function (n + 1) p') := by
  have hmoves := Production.moves (n + 1)
  refine .of_moving (hmoves.function _) (hmoves.function _) fun h h' => ?_
  rw [Production.function] at h h'
  have hiff := hp.isOver.peek_eq_iff (k := .lparen) rfl
  rcases p.expect_cases .lparen with ⟨hopen, he⟩ | ⟨hopen, he⟩ <;>
    rcases p'.expect_cases .lparen with ⟨hopen', he'⟩ | ⟨hopen', he'⟩ <;>
    simp only [he] at h <;> simp only [he'] at h'
  · obtain ⟨⟨params, r⟩, hparams, h⟩ := Option.bind_eq_some_iff.mp h
    obtain ⟨⟨params', r'⟩, hparams', h'⟩ := Option.bind_eq_some_iff.mp h'
    obtain ⟨hover, hsome⟩ := parameters_over (hp.isOver.advance hopen (by decide))
      (hp.listing hfn hopen) hparams hparams'
    rcases none_or_some_of_isSome_eq hsome with ⟨rfl, rfl⟩ | ⟨params, params', rfl, rfl⟩
    · cases h
      cases h'
      exact Or.inl hover
    · refine (Both.expect_over hover (hover.peek_eq_iff rfl) (by decide) (fun _ _ h => h)
        fun _ hnext => ?_).ends h h'
      exact .bind (ih.statements (Or.inl hnext)).advance fun _ u _ u' hu =>
        .of_some (.refl u) (.refl u') hu
  · exact absurd (hiff.mpr hopen) hopen'
  · exact absurd (hiff.mp hopen') hopen
  · cases h
    cases h'
    exact Or.inl (hp.isOver.record _ _)

theorem statements_succ (ih : AllAbreast b s n) {inBlock : Bool} (hp : Near (b.Abreast s) p p') :
    Both p p' (b.Over s) (Production.statements (n + 1) inBlock p)
      (Production.statements (n + 1) inBlock p') := by
  have hmoves := Production.moves (n + 1)
  refine .of_near (hmoves.statements _ _) (hmoves.statements _ _) hp fun hp => ?_
  have hstop := hp.sameKind.stop_iff inBlock
  rw [Production.statements, Production.statements]
  by_cases hend : p.current.kind = .eof ∨ inBlock = true ∧ p.current.kind = .rbrace
  · rw [if_pos hend, if_pos (hstop.mpr hend)]
    have hat : ¬ b.Facing p := by
      rcases hend with hend | ⟨-, hend⟩ <;> exact not_facing_of_kind hend (by decide)
    exact .of_some (.refl p) (.refl p') (Or.inl (hp.advance hat))
  · rw [if_neg hend, if_neg (mt hstop.mp hend)]
    refine .bind (ih.statement (Or.inl hp)) fun _ r _ r' hr => ?_
    exact .bind (ih.statements hr).advance fun _ u _ u' hu => .of_some (.refl u) (.refl u') hu

/-- A statement made of an expression, with the semicolon after it. -/
theorem terminated {α : Type} {m m' : Option (Option (Expr Unit) × Cursor)}
    {f f' : Option (Expr Unit) → α} (hb : ¬ b.Shielded) (h : Both p p' (b.Stopped s) m m') :
    Both p p' (b.Over s) (m >>= fun (x, q) => some (f x, q.skipTerminator))
      (m' >>= fun (x, q) => some (f' x, q.skipTerminator)) := by
  refine .bind h fun _ r _ r' hr => ?_
  have hmoves := (Moves.refl r).skipTerminator
  have hmoves' := (Moves.refl r').skipTerminator
  refine .of_some hmoves hmoves' ?_
  rcases hr with (hover | hparted) | ⟨h1, h2⟩
  · exact Or.inl hover.skipTerminator
  · exact Or.inl (hparted.isOver hb)
  · exact Or.inr ⟨Nat.le_trans h1 hmoves.size_le, Nat.le_trans h2 hmoves'.size_le⟩

theorem statement_succ (ih : AllAbreast b s n) (hb : ¬ b.Shielded) (hp : Near (b.Abreast s) p p') :
    Both p p' (b.Over s) (Production.statement (n + 1) p) (Production.statement (n + 1) p') := by
  have hmoves := Production.moves (n + 1)
  refine .of_near (hmoves.statement _) (hmoves.statement _) hp fun hp => ?_
  by_cases hlet : p.current.kind = .letWord
  · have hat : ¬ b.Facing p := not_facing_of_kind hlet (by decide)
    rw [Production.statement, Production.statement, hp.current_kind hat, hlet]
    have hover : b.Over s p p' := hp.advance hat
    refine .expect_over hover (Abreast.ident_iff hover) (by decide) (fun _ _ h => h) fun _ hq => ?_
    refine .expect_over hq (hq.peek_eq_iff rfl) (by decide) (fun _ _ h => h) fun _ hr => ?_
    exact terminated hb (ih.start (Or.inl hr)).advance
  by_cases hreturn : p.current.kind = .returnWord
  · have hat : ¬ b.Facing p := not_facing_of_kind hreturn (by decide)
    rw [Production.statement, Production.statement, hp.current_kind hat, hreturn]
    exact terminated hb (ih.start (Or.inl (hp.advance hat))).advance
  · rw [statement_alone hlet hreturn,
      statement_alone (mt (hp.sameKind.eq_iff rfl).mp hlet)
        (mt (hp.sameKind.eq_iff rfl).mp hreturn)]
    exact terminated hb (ih.start (Or.inl hp))

end AllAbreast

/-- **Productions read a severed source and a blotted one abreast, or report something in both.** -/
theorem abreast (hb : ¬ b.Shielded) (n : Nat) : AllAbreast b s n := by
  induction n with
  | zero => constructor <;> intros <;> exact .of_none
  | succ n ih =>
    exact {
      expression := ih.expression_succ
      operand := ih.operand_succ hb
      operators := ih.operators_succ
      extend := ih.extend_succ hb
      elements := ih.elements_succ hb
      moreElements := ih.moreElements_succ hb
      pairs := ih.pairs_succ hb
      conditional := ih.conditional_succ hb
      function := ih.function_succ
      statements := ih.statements_succ
      statement := ih.statement_succ hb }

end Production

/-! ## Whole sources -/

theorem Cursor.length_diagnostics (p : Cursor) : p.diagnostics.length = p.reports.size := by
  simp [diagnostics]

theorem Cursor.program_eq_of_le {p : Cursor} {n : Nat} (h : p.depth ≤ n) :
    Production.statements n false p = some (p.program.1, p.program.2) :=
  Production.Refines.keep (fun n => (Production.refines n).statements _ _) h p.program_eq

namespace Spot

variable {q q' : Cursor}

theorem Reported.once_iff (h : Reported q q') :
    q'.diagnostics = [.noOperand .illegal] ↔ q.diagnostics = [] := by
  have hsize := h.1
  constructor
  · intro honce
    rw [← q'.length_diagnostics, honce, List.length_singleton] at hsize
    exact List.eq_nil_of_length_eq_zero (by rw [q.length_diagnostics]; omega)
  · intro hclean
    exact h.2 (by rw [← q.length_diagnostics, hclean]; rfl)

theorem Spoiled.once_iff (h : Spoiled q q') :
    q'.diagnostics = [.noOperand .illegal] ↔ q.diagnostics = [] := by
  obtain ⟨hsize, hsize'⟩ := h
  constructor
  · intro honce
    rw [← q'.length_diagnostics, honce, List.length_singleton] at hsize'
    omega
  · intro hclean
    rw [← q.length_diagnostics, hclean, List.length_nil] at hsize
    omega

/-- **An exposed operand leaves a rest that has to stand by itself.** -/
theorem diagnostics_blot_iff {source : String} {b : Spot} (hb : ¬ b.Shielded)
    (htokens : (tokenize source).dropLast = b.tokens) {c : Char} (hc : isIllegal c = true) :
    (parse (blot source b.token c)).diagnostics = [.noOperand .illegal] ↔
      (parse (sever source b.token)).diagnostics = [] := by
  rw [dropLast_tokenize] at htokens
  have hstart : b.Abreast (String.ofList [c]) (Cursor.ofSource (sever source b.token))
      (Cursor.ofSource (blot source b.token c)) :=
    Or.inl ⟨[], b.before, rfl, words_sever htokens, words_blot htokens hc, rfl⟩
  have hend := ((Production.abreast hb _).statements (Or.inl hstart)).ends
    (Cursor.program_eq_of_le (Nat.le_max_left _ _)) (Cursor.program_eq_of_le (Nat.le_max_right _ _))
  rcases hend with (⟨done, pre, -, hleft, -⟩ | hbehind) | hspoiled
  · rw [Cursor.tokens_advance, Cursor.tokens_program] at hleft
    simp [severed] at hleft
  · exact Reported.once_iff hbehind.reported
  · exact Spoiled.once_iff hspoiled

end Spot

/-- **When a blotted operand is reported once.** Let an operand of one token be blotted in a source
that parses without a diagnostic. The blot is all that is reported if and only if the operand stands
behind an operator, or no operator stands behind it, or the source parses with a statement in place
of the operand. -/
theorem blotted_operand_reported_once_iff {source : String} {b : Spot} {c : Char}
    (hclean : (parse source).diagnostics = []) (htokens : (tokenize source).dropLast = b.tokens)
    (hc : isIllegal c = true) :
    (parse (blot source b.token c)).diagnostics = [.noOperand .illegal] ↔
      b.Shielded ∨ (parse (sever source b.token)).diagnostics = [] := by
  by_cases hb : b.Shielded
  · exact ⟨fun _ => Or.inl hb, fun _ => hb.diagnostics_blot hclean htokens hc⟩
  · rw [Spot.diagnostics_blot_iff hb htokens hc, or_iff_right hb]

/-- What is called may be blotted at the start of a statement, if there is one argument. -/
theorem blotted_operand_reported_once_iff_callee :
    (parse "a(x) - b").diagnostics = [] ∧
      (parse (blot "a(x) - b" ⟨.ident, "a", 0, 1⟩ '@')).diagnostics = [.noOperand .illegal] :=
  ⟨by decide +kernel,
    (blotted_operand_reported_once_iff
      (b := ⟨[], ⟨.ident, "a", 0, 1⟩,
        [⟨.lparen, "(", 1, 2⟩, ⟨.ident, "x", 2, 3⟩, ⟨.rparen, ")", 3, 4⟩, ⟨.minus, "-", 5, 6⟩,
          ⟨.ident, "b", 7, 8⟩], rfl, rfl⟩)
      (by decide +kernel) (by decide +kernel) (by decide)).mpr (Or.inr (by decide +kernel))⟩

/-- A blotted operand can be reported with the operator behind it, as in `(@ + 2)`, where that comes
in place of the closing parenthesis. -/
theorem not_every_blotted_operand_reported_once :
    ¬ ∀ (source : String) (b : Spot) (c : Char), (parse source).diagnostics = [] →
      (tokenize source).dropLast = b.tokens → isIllegal c = true →
        (parse (blot source b.token c)).diagnostics = [.noOperand .illegal] := by
  intro h
  have honce := h "(a + 2)"
    ⟨[⟨.lparen, "(", 0, 1⟩], ⟨.ident, "a", 1, 2⟩,
      [⟨.plus, "+", 3, 4⟩, ⟨.int, "2", 5, 6⟩, ⟨.rparen, ")", 6, 7⟩], rfl, rfl⟩
    '@' (by decide +kernel) (by decide +kernel) (by decide)
  revert honce
  decide +kernel

end ClosureLang
