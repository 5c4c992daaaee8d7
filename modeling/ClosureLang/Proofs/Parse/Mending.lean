import ClosureLang.Proofs.Parse.Exact
import ClosureLang.Proofs.Token.Mending

/-!
# Integers that are too large do not derail the parser

A source and its mended form are read in step: whatever the tokens are, each production takes the
same tokens from both and reports the same, but for the integers that are too large. `Agree R m m'`
is that two bounded productions do so and give results that `R` relates. A missing tree is passed on
and never decides what is read next.

If nothing is reported for the mended source, more is known. Its integers are then the integers of
its tree, in the same order, and the parser returns that tree without the statements that hold an
integer that is too large. `keepBlock` leaves these out. It takes one flag for each integer of the
tree, and an integer with a raised flag takes with it the innermost statement around it.

The flags and the reports still to come are kept in a ledger (`Cursor.here`), which stays in balance
while tokens are read: an integer moves from the flags to the tree, and from the reports to come to
the reports.
-/

namespace ClosureLang

open Grammar

variable {τ α β : Type}

/-! ## Leaving statements out -/

/-- Takes the next flag. -/
def nextFlag : StateM (List Bool) Bool
  | [] => (false, [])
  | f :: fs => (f, fs)

mutual

/-- The expression without the statements in its blocks that hold an integer with a raised flag.
There is none if such an integer stands outside its blocks. -/
def Expr.keep : Expr τ → StateM (List Bool) (Option (Expr τ))
  | .name n => pure (some (.name n))
  | .int k => do
    let raised ← nextFlag
    pure (if raised then none else some (.int k))
  | .text s => pure (some (.text s))
  | .bool b => pure (some (.bool b))
  | .array items => do
    let xs ← keepEach items
    pure ((allSome xs).map .array)
  | .hash pairs => do
    let ps ← keepPairs pairs
    pure ((allSome ps).map .hash)
  | .unary op x => do
    let x ← x.keep
    pure (x.map (.unary op))
  | .binary op x y => do
    let x ← x.keep
    let y ← y.keep
    pure ((both x y).map fun (x, y) => .binary op x y)
  | .cond c yes none => do
    let c ← c.keep
    let yes ← keepBlock yes
    pure (c.map (.cond · yes none))
  | .cond c yes (some no) => do
    let c ← c.keep
    let yes ← keepBlock yes
    let no ← keepBlock no
    pure (c.map (.cond · yes (some no)))
  | .fn tag params body => do
    let body ← keepBlock body
    pure (some (.fn tag params body))
  | .call f args => do
    let f ← f.keep
    let xs ← keepEach args
    pure ((both f (allSome xs)).map fun (f, xs) => .call f xs)
  | .index x i => do
    let x ← x.keep
    let i ← i.keep
    pure ((both x i).map fun (x, i) => .index x i)

/-- Some expressions, one by one. -/
def keepEach : List (Expr τ) → StateM (List Bool) (List (Option (Expr τ)))
  | [] => pure []
  | x :: xs => do
    let x ← x.keep
    let xs ← keepEach xs
    pure (x :: xs)

/-- Some pairs of a hash literal, one by one. -/
def keepPairs : List (Expr τ × Expr τ) → StateM (List Bool) (List (Option (Expr τ × Expr τ)))
  | [] => pure []
  | (k, v) :: ps => do
    let k ← k.keep
    let v ← v.keep
    let ps ← keepPairs ps
    pure (both k v :: ps)

/-- The statements of a block that are kept, in their order. -/
def keepBlock : List (Stmt τ) → StateM (List Bool) (List (Stmt τ))
  | [] => pure []
  | s :: b => do
    let s ← s.keep
    let b ← keepBlock b
    pure (s.toList ++ b)

/-- The statement, unless it is left out. -/
def Stmt.keep : Stmt τ → StateM (List Bool) (Option (Stmt τ))
  | .bind n x => do
    let x ← x.keep
    pure (x.map (.bind n))
  | .ret x => do
    let x ← x.keep
    pure (x.map .ret)
  | .expr x => do
    let x ← x.keep
    pure (x.map .expr)

end

/-! ## The ledger -/

/-- A flag for each integer among some tokens, raised if it is too large. -/
def flags (ts : List Token) : List Bool := (ts.filter (·.kind == .int)).map Token.tooLarge

/-- One report for each integer that is too large. -/
def complaints (ts : List Token) : List Diagnostic :=
  (ts.filter Token.tooLarge).map fun t => .badInteger t.literal

theorem flags_cons {t : Token} (h : t.kind = .int) (ts : List Token) :
    flags (t :: ts) = t.tooLarge :: flags ts := by
  simp [flags, h]

theorem complaints_cons (t : Token) (ts : List Token) :
    complaints (t :: ts) =
      if t.tooLarge then .badInteger t.literal :: complaints ts else complaints ts := by
  unfold complaints
  rw [List.filter_cons]
  split <;> rfl

/-- The flags of the integers that are not yet read, and the reports once these are reported. -/
structure Ledger where
  flags : List Bool
  reports : List Diagnostic

/-- A tree that was read between two ledgers: it takes the flags of its integers, and what was
reported is what had to be. -/
structure Takes (keep : StateM (List Bool) α) (a : α) (l m : Ledger) : Prop where
  flags : keep l.flags = (a, m.flags)
  reports : m.reports = l.reports

namespace Takes

variable {l m n : Ledger}

theorem pure (a : α) (l : Ledger) : Takes (Pure.pure a) a l l := ⟨rfl, rfl⟩

/-- Flags are taken in the order of the tree, and so are the reports that go with them. -/
theorem bind {k : StateM (List Bool) α} {f : α → StateM (List Bool) β} {a : α} {b : β}
    (hk : Takes k a l m) (hf : Takes (f a) b m n) : Takes (k >>= f) b l n := by
  refine ⟨?_, hf.reports.trans hk.reports⟩
  show (match k l.flags with
    | (a, fs) => f a fs) = _
  rw [hk.flags]
  exact hf.flags

end Takes

namespace Cursor

/-- The ledger with the current token and those behind it to come. -/
def here (p : Cursor) : Ledger := ⟨flags p.tokens, p.diagnostics ++ complaints p.tokens⟩

/-- The ledger with the tokens behind the current one to come. -/
def behind (p : Cursor) : Ledger :=
  ⟨flags p.tokens.tail, p.diagnostics ++ complaints p.tokens.tail⟩

theorem here_advance (p : Cursor) : p.advance.here = p.behind := rfl

/-- A token that is no integer does not change the ledger. -/
theorem behind_eq_here {p : Cursor} (h : p.current.kind ≠ .int) : p.behind = p.here := by
  unfold behind here
  cases hts : p.tokens with
  | nil => rfl
  | cons t ts =>
    rw [current_of_tokens hts] at h
    simp [flags, complaints, Token.tooLarge, h]

/-- A token that is no integer changes nothing in the ledger. -/
theorem behind_advance {p : Cursor} (h : p.peek.kind ≠ .int) : p.advance.behind = p.behind :=
  behind_eq_here h

theorem behind_skipTerminator (p : Cursor) : p.skipTerminator.behind = p.behind := by
  unfold skipTerminator
  split
  · next h => exact behind_advance (by simp [h])
  · rfl

end Cursor

/-! ## Reading in step -/

/-- Whether a diagnostic is about an integer that is too large. -/
def Diagnostic.isBadInteger : Diagnostic → Bool
  | .badInteger _ => true
  | _ => false

theorem Token.kind_mendedWord (t : Token) : t.mendedWord.1 = t.kind := by
  unfold mendedWord
  split
  · next h =>
    rw [tooLarge, Bool.and_eq_true, beq_iff_eq] at h
    exact h.1.symm
  · rfl

/-- Mending changes integers only. -/
theorem Token.mendedWord_of_kind {t : Token} (h : t.kind ≠ .int) : t.mendedWord = t.word := by
  simp [mendedWord, tooLarge, h]

namespace Cursor

/-- Two cursors at the same place of a source and of its mended form. -/
structure Mended (p p' : Cursor) : Prop where
  words : p'.tokens.map Token.word = p.tokens.map Token.mendedWord
  diagnostics : p'.diagnostics = p.diagnostics.filter (!·.isBadInteger)

/-- Nothing has been reported. -/
def Clean (p : Cursor) : Prop := p.reports = #[]

theorem clean_iff (p : Cursor) : p.Clean ↔ p.diagnostics = [] := by
  simp [Clean, diagnostics]

theorem not_clean_record (p : Cursor) (d : Diagnostic) : ¬ (p.record d).Clean := by
  simp [Clean, record]

theorem clean_skipTerminator (p : Cursor) : p.skipTerminator.Clean ↔ p.Clean := by
  unfold skipTerminator
  split <;> rfl

theorem diagnostics_record (p : Cursor) (d : Diagnostic) :
    (p.record d).diagnostics = p.diagnostics ++ [d] := by
  simp [diagnostics, record]

namespace Mended

variable {p p' : Cursor}

theorem word_headD {ts ts' : List Token} (h : ts'.map Token.word = ts.map Token.mendedWord)
    (i j : Nat) : (ts'.headD (Token.ending i)).word = (ts.headD (Token.ending j)).mendedWord := by
  cases ts with
  | nil =>
    rw [List.map_nil, List.map_eq_nil_iff] at h
    rw [h]
    rfl
  | cons t ts =>
    obtain ⟨t', ts', rfl, ht, -⟩ := List.map_eq_cons_iff.mp h
    exact ht

/-- The cursors stand at the same token, up to mending. -/
theorem current_word (h : p.Mended p') : p'.current.word = p.current.mendedWord :=
  word_headD h.words _ _

theorem tail (h : p.Mended p') :
    p'.tokens.tail.map Token.word = p.tokens.tail.map Token.mendedWord := by
  rw [List.map_tail, h.words, List.map_tail]

/-- The current tokens are of the same kind. -/
theorem current_kind (h : p.Mended p') : p'.current.kind = p.current.kind :=
  (congrArg Prod.fst h.current_word).trans p.current.kind_mendedWord

/-- The tokens behind them are of the same kind. -/
theorem peek_kind (h : p.Mended p') : p'.peek.kind = p.peek.kind :=
  (congrArg Prod.fst (word_headD h.tail _ _)).trans p.peek.kind_mendedWord

/-- The current tokens have the same literal if they are no integers. -/
theorem current_literal (h : p.Mended p') (hkind : p.current.kind ≠ .int) :
    p'.current.literal = p.current.literal := by
  have hword := h.current_word
  rw [Token.mendedWord_of_kind hkind] at hword
  exact congrArg Prod.snd hword

theorem advance (h : p.Mended p') : p.advance.Mended p'.advance := ⟨h.tail, h.diagnostics⟩

theorem skipTerminator (h : p.Mended p') : p.skipTerminator.Mended p'.skipTerminator := by
  unfold Cursor.skipTerminator
  rw [h.peek_kind]
  split
  · exact h.advance
  · exact h

/-- A report of anything but an integer is made for both sources. -/
theorem record (h : p.Mended p') {d : Diagnostic} (hd : d.isBadInteger = false) :
    (p.record d).Mended (p'.record d) := by
  refine ⟨h.words, ?_⟩
  rw [diagnostics_record, diagnostics_record, h.diagnostics, List.filter_append]
  simp [hd]

/-- An integer that is too large is reported for the source only. -/
theorem recordBad (h : p.Mended p') (literal : String) :
    (p.record (.badInteger literal)).Mended p' := by
  refine ⟨h.words, ?_⟩
  rw [diagnostics_record, h.diagnostics, List.filter_append]
  simp [Diagnostic.isBadInteger]

/-- As many tokens are left. -/
theorem depth_eq (h : p.Mended p') : p'.depth = p.depth := by
  have hlength := congrArg List.length h.words
  simp only [List.length_map] at hlength
  rw [depth, depth, left, left, hlength]

end Mended

end Cursor

namespace Production

open Cursor

/-- Bounded productions that end at the same place of a source and of its mended form, or both do
not end, and that give results that are related. -/
def Agree (R : α → α → Cursor → Cursor → Prop) (m m' : Option (α × Cursor)) : Prop :=
  Option.Rel (fun x x' => x.2.Mended x'.2 ∧ R x.1 x'.1 x.2 x'.2) m m'

/-- Results that are related if nothing is reported for the mended source, in which case nothing had
been reported at the start either. -/
def Cleanly (p' : Cursor) (K : α → α → Cursor → Prop) (a a' : α) (q q' : Cursor) : Prop :=
  q'.Clean → p'.Clean ∧ K a a' q

/-- A tree was read from a ledger on, and its kept part is what the source gives. -/
def Keeps (keep : α → StateM (List Bool) (Option α)) (l : Ledger) (r r' : Option α) (q : Cursor) :
    Prop :=
  ∃ x, r' = some x ∧ Takes (keep x) r l q.behind

namespace Agree

variable {R : α → α → Cursor → Cursor → Prop} {S : β → β → Cursor → Cursor → Prop}
  {p' q q' : Cursor}

theorem of_some {a a' : α} (h : q.Mended q') (hR : R a a' q q') :
    Agree R (some (a, q)) (some (a', q')) := .some ⟨h, hR⟩

/-- Productions in a row agree: the second ones start at mended cursors, from related results. -/
theorem bind {m m' : Option (α × Cursor)} {f f' : α × Cursor → Option (β × Cursor)}
    (hm : Agree R m m') (hf : ∀ a a' r r', r.Mended r' → R a a' r r' →
      Agree S (f (a, r)) (f' (a', r'))) : Agree S (m >>= f) (m' >>= f') := by
  cases hm with
  | none => exact .none
  | @some x x' h => exact hf x.1 x'.1 x.2 x'.2 h.1 h.2

/-- What happens after a wanted token, if there is nothing without it. -/
theorem expect {R : Option α → Option α → Cursor → Cursor → Prop} {k : TokenKind}
    {yes yes' : Cursor → Option (Option α × Cursor)} (h : q.Mended q')
    (hno : ∀ r r', ¬ r'.Clean → R none none r r')
    (hyes : q.peek.kind = k → Agree R (yes q.advance) (yes' q'.advance)) :
    Agree R
      (match q.expect k with
      | (false, r) => some (none, r)
      | (true, r) => yes r)
      (match q'.expect k with
      | (false, r) => some (none, r)
      | (true, r) => yes' r) := by
  rcases q.expect_cases k with ⟨hk, he⟩ | ⟨hk, he⟩ <;>
    rcases q'.expect_cases k with ⟨hk', he'⟩ | ⟨hk', he'⟩ <;> rw [he, he']
  · exact hyes hk
  · exact absurd (h.peek_kind.trans hk) hk'
  · exact absurd (h.peek_kind.symm.trans hk') hk
  · rw [h.peek_kind]
    exact of_some (h.record rfl) (hno _ _ (not_clean_record _ _))

variable {K : α → α → Cursor → Prop}

/-- What is reported for both. -/
theorem of_report {a a' : α} {d : Diagnostic} (h : q.Mended q') (hd : d.isBadInteger = false) :
    Agree (Cleanly p' K) (some (a, q.record d)) (some (a', q'.record d)) :=
  of_some (h.record hd) fun hclean => absurd hclean (not_clean_record _ _)

/-- A production may start later than another one that leads to it. -/
theorem start {m m' : Option (α × Cursor)} (hm : Agree (Cleanly q' K) m m')
    (h : q'.Clean → p'.Clean) : Agree (Cleanly p' K) m m' := by
  cases hm with
  | none => exact .none
  | some hx => exact .some ⟨hx.1, fun hclean => ⟨h (hx.2 hclean).1, (hx.2 hclean).2⟩⟩

end Agree

theorem Cleanly.of_not {p' r r' : Cursor} {K : α → α → Cursor → Prop} {a a' : α}
    (h : ¬ r'.Clean) : Cleanly p' K a a' r r' :=
  fun hclean => absurd hclean h

/-! ### Parameters -/

/-- Names that are the same. If nothing is reported, they are there, and no integer is among them. -/
def SameNames (p' : Cursor) (l : Ledger) (r r' : Option (List String)) (q q' : Cursor) : Prop :=
  r' = r ∧ (q'.Clean → p'.Clean ∧ r.isSome ∧ q.behind = l)

theorem names_agree : ∀ (n : Nat) {p p' : Cursor}, p.Mended p' →
    Agree (SameNames p' p.here) (names n p) (names n p') := by
  intro n
  induction n with
  | zero => exact fun _ => .none
  | succ n ih =>
    intro p p' hp
    rw [names, names, hp.current_kind, hp.peek_kind]
    split
    · next hident =>
      have hne : p.current.kind ≠ .int := by simp [hident]
      rw [hp.current_literal hne]
      split
      · next hcomma =>
        refine .bind (ih hp.advance.advance) fun rest rest' q q' hq hrest => .of_some hq ?_
        obtain ⟨rfl, hclean⟩ := hrest
        refine ⟨rfl, fun h => ?_⟩
        obtain ⟨hp', hsome, hbehind⟩ := hclean h
        refine ⟨hp', by rwa [Option.isSome_map], hbehind.trans ?_⟩
        rw [here_advance, behind_advance (by simp [hcomma]), behind_eq_here hne]
      · exact .of_some hp ⟨rfl, fun h => ⟨h, rfl, behind_eq_here hne⟩⟩
    · exact .of_some (hp.record rfl) ⟨rfl, fun h => absurd h (not_clean_record _ _)⟩

theorem parameters_agree {n : Nat} {p p' : Cursor} (hp : p.Mended p') :
    Agree (SameNames p' p.behind) (parameters n p) (parameters n p') := by
  rw [parameters, parameters, hp.peek_kind]
  split
  · next hclose =>
    exact .of_some hp.advance ⟨rfl, fun h => ⟨h, rfl, behind_advance (by simp [hclose])⟩⟩
  · refine .bind (names_agree n hp.advance) fun params params' q q' hq hparams => ?_
    obtain ⟨rfl, hclean⟩ := hparams
    cases params' with
    | none => exact .of_some hq ⟨rfl, hclean⟩
    | some params =>
      refine .expect hq (fun r r' h => ⟨rfl, fun hc => absurd hc h⟩) fun hclose => ?_
      refine .of_some hq.advance ⟨rfl, fun h => ?_⟩
      rw [behind_advance (by simp [hclose])]
      exact hclean h

/-! ### Expressions and statements -/

/-- Every production that may go `n` calls deep reads a source and its mended form in step. -/
structure AllAgree (n : Nat) : Prop where
  expression : ∀ {p p'} min, p.Mended p' →
    Agree (Cleanly p' (Keeps Expr.keep p.here)) (expression n min p) (expression n min p')
  operand : ∀ {lead p p'}, p.Mended p' → p.current.kind.lead? = some lead →
    Agree (Cleanly p' (Keeps Expr.keep p.here)) (operand n lead p) (operand n lead p')
  operators : ∀ {min left left' p p' l}, p.Mended p' →
    (p'.Clean → Keeps Expr.keep l left left' p) →
    Agree (Cleanly p' (Keeps Expr.keep l)) (operators n min left p) (operators n min left' p')
  extend : ∀ {follow left left' p p' l}, p.Mended p' → p.current.kind.follow? = some follow →
    (p'.Clean → Keeps Expr.keep l left left' p) →
    Agree (Cleanly p' (Keeps Expr.keep l)) (extend n follow left p) (extend n follow left' p')
  elements : ∀ {close p p'}, p.Mended p' → close ≠ .int →
    Agree (Cleanly p' fun r r' q => ∃ xs ys, r' = some xs ∧ r = allSome ys ∧
      Takes (keepEach xs) ys p.behind q.behind) (elements n close p) (elements n close p')
  moreElements : ∀ {p p'}, p.Mended p' →
    Agree (Cleanly p' fun rs rs' q => ∃ xs, rs' = xs.map some ∧
      Takes (keepEach xs) rs p.behind q.behind) (moreElements n p) (moreElements n p')
  pairs : ∀ {p p'}, p.Mended p' →
    Agree (Cleanly p' fun r r' q => ∃ ps rs, r' = some (ps.map some) ∧ r = some rs ∧
      Takes (keepPairs ps) rs p.behind q.behind) (pairs n p) (pairs n p')
  conditional : ∀ {p p'}, p.Mended p' → p.current.kind = .ifWord →
    Agree (Cleanly p' (Keeps Expr.keep p.here)) (conditional n p) (conditional n p')
  function : ∀ {p p'}, p.Mended p' → p.current.kind = .fnWord →
    Agree (Cleanly p' (Keeps Expr.keep p.here)) (function n p) (function n p')
  statements : ∀ {p p'} inBlock, p.Mended p' →
    Agree (Cleanly p' fun b b' q => Takes (keepBlock b') b p.here q.behind)
      (statements n inBlock p) (statements n inBlock p')
  statement : ∀ {p p'}, p.Mended p' →
    Agree (Cleanly p' (Keeps Stmt.keep p.here)) (statement n p) (statement n p')

namespace AllAgree

variable {n : Nat} {p p' : Cursor}

theorem expression_succ (ih : AllAgree n) (min : Precedence) (hp : p.Mended p') :
    Agree (Cleanly p' (Keeps Expr.keep p.here)) (Production.expression (n + 1) min p)
      (Production.expression (n + 1) min p') := by
  rw [Production.expression, Production.expression, hp.current_kind]
  cases hlead : p.current.kind.lead? with
  | none => exact .of_report hp rfl
  | some lead =>
    refine .bind (ih.operand hp hlead) fun left left' q q' hq hleft => ?_
    exact (ih.operators hq fun h => (hleft h).2).start fun h => (hleft h).1

/-- An integer is read from the source and from its mended form. -/
theorem integer_agree (hp : p.Mended p') (hkind : p.current.kind = .int) :
    Agree (Cleanly p' (Keeps Expr.keep p.here)) (Production.operand (n + 1) .integer p)
      (Production.operand (n + 1) .integer p') := by
  obtain ⟨t, ts, hts, ht⟩ := exists_of_current hkind (by decide)
  have hword := hp.current_word
  rw [current_of_tokens hts] at hword
  rw [Production.operand, Production.operand, current_of_tokens hts]
  cases hread : readInteger? t.literal with
  | some k =>
    have hsmall : t.tooLarge = false := by simp [Token.tooLarge, hread]
    have hliteral : p'.current.literal = t.literal := by
      rw [Token.mendedWord, hsmall] at hword
      exact congrArg Prod.snd hword
    rw [hliteral, hread]
    refine .of_some hp fun h => ⟨h, .int k, rfl, ?_, ?_⟩
    · rw [Expr.keep, here, behind, hts, flags_cons ht, hsmall]
      rfl
    · rw [here, behind, hts, complaints_cons, hsmall]
      rfl
  | none =>
    have hlarge : t.tooLarge = true := by simp [Token.tooLarge, ht, hread]
    have hliteral : p'.current.literal = "0" := by
      rw [Token.mendedWord, hlarge] at hword
      exact congrArg Prod.snd hword
    rw [hliteral]
    -- the source has nothing but a report where the mended source has a zero
    refine .of_some (hp.recordBad _) fun h => ⟨h, .int 0, rfl, ?_, ?_⟩
    · rw [Expr.keep, here, hts, flags_cons ht, hlarge, behind, record, hts]
      rfl
    · rw [here, hts, complaints_cons, hlarge, behind, diagnostics_record, record, hts,
        List.append_assoc]
      rfl

/-- The integer is the one operand that the sources read differently, and the ledger accounts for
it. -/
theorem operand_succ (ih : AllAgree n) {lead : Lead} (hp : p.Mended p')
    (hlead : p.current.kind.lead? = some lead) :
    Agree (Cleanly p' (Keeps Expr.keep p.here)) (Production.operand (n + 1) lead p)
      (Production.operand (n + 1) lead p') := by
  have hkind := kind_of_lead? hlead
  by_cases hint : p.current.kind = .int
  · rw [hint] at hlead
    cases hlead
    exact integer_agree hp hint
  -- all other operands start with a token that the ledger does not hold
  have hstart := behind_eq_here hint
  cases lead <;> rw [Production.operand, Production.operand]
  case integer => exact absurd hkind hint
  case name =>
    rw [hp.current_literal hint]
    exact .of_some hp fun h => ⟨h, _, rfl, hstart ▸ .pure _ _⟩
  case text =>
    rw [hp.current_literal hint]
    exact .of_some hp fun h => ⟨h, _, rfl, hstart ▸ .pure _ _⟩
  case truth b => exact .of_some hp fun h => ⟨h, _, rfl, hstart ▸ .pure _ _⟩
  case unary op =>
    refine .bind (ih.expression _ hp.advance) fun x x' q q' hq hx => .of_some hq fun h => ?_
    obtain ⟨hp', y, rfl, hy⟩ := hx h
    rw [here_advance, hstart] at hy
    exact ⟨hp', .unary op y, rfl, hy.bind (.pure _ _)⟩
  case group =>
    refine .bind (ih.expression _ hp.advance) fun x x' q q' hq hx => ?_
    refine .expect hq (fun _ _ => .of_not) fun hclose => .of_some hq.advance fun h => ?_
    obtain ⟨hp', y, rfl, hy⟩ := hx h
    rw [here_advance, hstart] at hy
    rw [Keeps, behind_advance (by simp [hclose])]
    exact ⟨hp', y, rfl, hy⟩
  case array =>
    refine .bind (ih.elements hp (by decide)) fun r r' q q' hq hr => .of_some hq fun h => ?_
    obtain ⟨hp', xs, ys, rfl, rfl, hxs⟩ := hr h
    rw [hstart] at hxs
    exact ⟨hp', .array xs, rfl, hxs.bind (.pure _ _)⟩
  case hash =>
    refine .bind (ih.pairs hp) fun r r' q q' hq hr => .of_some hq fun h => ?_
    obtain ⟨hp', ps, rs, rfl, rfl, hps⟩ := hr h
    rw [hstart] at hps
    refine ⟨hp', .hash ps, ?_, hps.bind (.pure _ _)⟩
    rw [Option.bind_some, allSome_map_some]
    rfl
  case conditional => exact ih.conditional hp hkind
  case function => exact ih.function hp hkind

/-- An integer does not follow an operand. -/
theorem ne_int_of_follow {k : TokenKind} {follow : Follow} (h : k.follow? = some follow) :
    k ≠ .int := by
  rintro rfl
  cases h

theorem operators_succ (ih : AllAgree n) {min : Precedence} {left left' : Option (Expr Unit)}
    {l : Ledger} (hp : p.Mended p') (hleft : p'.Clean → Keeps Expr.keep l left left' p) :
    Agree (Cleanly p' (Keeps Expr.keep l)) (Production.operators (n + 1) min left p)
      (Production.operators (n + 1) min left' p') := by
  rw [Production.operators, Production.operators, hp.peek_kind]
  split
  · cases hfollow : p.peek.kind.follow? with
    | none => exact .of_some hp fun h => ⟨h, hleft h⟩
    | some follow =>
      have hleft' : p'.advance.Clean → Keeps Expr.keep l left left' p.advance := by
        intro h
        rw [Keeps, behind_advance (ne_int_of_follow hfollow)]
        exact hleft h
      refine .bind (ih.extend hp.advance hfollow hleft') fun x x' q q' hq hx => ?_
      exact (ih.operators hq fun h => (hx h).2).start fun h => (hx h).1
  · exact .of_some hp fun h => ⟨h, hleft h⟩

theorem extend_succ (ih : AllAgree n) {follow : Follow} {left left' : Option (Expr Unit)}
    {l : Ledger} (hp : p.Mended p') (hfollow : p.current.kind.follow? = some follow)
    (hleft : p'.Clean → Keeps Expr.keep l left left' p) :
    Agree (Cleanly p' (Keeps Expr.keep l)) (Production.extend (n + 1) follow left p)
      (Production.extend (n + 1) follow left' p') := by
  cases follow <;> rw [Production.extend, Production.extend]
  case operation op =>
    rw [hp.current_kind]
    refine .bind (ih.expression _ hp.advance) fun y y' q q' hq hy => .of_some hq fun h => ?_
    obtain ⟨hp', z, rfl, hz⟩ := hy h
    obtain ⟨x, rfl, hx⟩ := hleft hp'
    exact ⟨hp', .binary op x z, rfl, hx.bind (hz.bind (.pure _ _))⟩
  case call =>
    refine .bind (ih.elements hp (by decide)) fun r r' q q' hq hr => .of_some hq fun h => ?_
    obtain ⟨hp', xs, ys, rfl, rfl, hxs⟩ := hr h
    obtain ⟨x, rfl, hx⟩ := hleft hp'
    exact ⟨hp', .call x xs, rfl, hx.bind (hxs.bind (.pure _ _))⟩
  case index =>
    refine .bind (ih.expression _ hp.advance) fun y y' q q' hq hy => ?_
    refine .expect hq (fun _ _ => .of_not) fun hclose => .of_some hq.advance fun h => ?_
    obtain ⟨hp', z, rfl, hz⟩ := hy h
    obtain ⟨x, rfl, hx⟩ := hleft hp'
    rw [Keeps, behind_advance (by simp [hclose])]
    exact ⟨hp', .index x z, rfl, hx.bind (hz.bind (.pure _ _))⟩

theorem elements_succ (ih : AllAgree n) {close : TokenKind} (hp : p.Mended p')
    (hclose : close ≠ .int) :
    Agree (Cleanly p' fun r r' q => ∃ xs ys, r' = some xs ∧ r = allSome ys ∧
      Takes (keepEach xs) ys p.behind q.behind) (Production.elements (n + 1) close p)
      (Production.elements (n + 1) close p') := by
  rw [Production.elements, Production.elements, hp.peek_kind]
  split
  · next hpeek =>
    refine .of_some hp.advance fun h => ⟨h, [], [], rfl, rfl, ?_⟩
    rw [behind_advance (by rwa [hpeek])]
    exact .pure _ _
  · refine .bind (ih.expression _ hp.advance) fun x x' q q' hq hx => ?_
    refine .bind (ih.moreElements hq) fun rest rest' r r' hr hrest => ?_
    refine .expect hr (fun _ _ => .of_not) fun hpeek => .of_some hr.advance fun h => ?_
    obtain ⟨hq', ys, rfl, hys⟩ := hrest h
    obtain ⟨hp', y, rfl, hy⟩ := hx hq'
    refine ⟨hp', y :: ys, _, allSome_map_some (y :: ys), rfl, ?_⟩
    rw [behind_advance (by rwa [hpeek])]
    exact hy.bind (hys.bind (.pure _ _))

theorem moreElements_succ (ih : AllAgree n) (hp : p.Mended p') :
    Agree (Cleanly p' fun rs rs' q => ∃ xs, rs' = xs.map some ∧
      Takes (keepEach xs) rs p.behind q.behind) (Production.moreElements (n + 1) p)
      (Production.moreElements (n + 1) p') := by
  rw [Production.moreElements, Production.moreElements, hp.peek_kind]
  split
  · next hcomma =>
    refine .bind (ih.expression _ hp.advance.advance) fun x x' q q' hq hx => ?_
    refine .bind (ih.moreElements hq) fun rest rest' r r' hr hrest => .of_some hr fun h => ?_
    obtain ⟨hq', ys, rfl, hys⟩ := hrest h
    obtain ⟨hp', y, rfl, hy⟩ := hx hq'
    rw [here_advance, behind_advance (by simp [hcomma])] at hy
    exact ⟨hp', y :: ys, rfl, hy.bind (hys.bind (.pure _ _))⟩
  · exact .of_some hp fun h => ⟨h, [], rfl, .pure _ _⟩

theorem pairs_succ (ih : AllAgree n) (hp : p.Mended p') :
    Agree (Cleanly p' fun r r' q => ∃ ps rs, r' = some (ps.map some) ∧ r = some rs ∧
      Takes (keepPairs ps) rs p.behind q.behind) (Production.pairs (n + 1) p)
      (Production.pairs (n + 1) p') := by
  rw [Production.pairs, Production.pairs, hp.peek_kind]
  split
  · next hclose =>
    refine .of_some hp.advance fun h => ⟨h, [], [], rfl, rfl, ?_⟩
    rw [behind_advance (by simp [hclose])]
    exact .pure _ _
  · refine .bind (ih.expression _ hp.advance) fun key key' q q' hq hkey => ?_
    refine .expect hq (fun _ _ => .of_not) fun hcolon => ?_
    refine .bind (ih.expression _ hq.advance.advance) fun value value' r r' hr hvalue => ?_
    -- the key and the value, if nothing is reported up to here
    have hpair : r'.Clean → p'.Clean ∧ ∃ k v, key' = some k ∧ value' = some v ∧
        Takes k.keep key p.behind q.behind ∧ Takes v.keep value q.behind r.behind := by
      intro h
      obtain ⟨hq', v, rfl, hv⟩ := hvalue h
      obtain ⟨hp', k, rfl, hk⟩ := hkey hq'
      rw [here_advance, behind_advance (by simp [hcolon])] at hv
      exact ⟨hp', k, v, rfl, rfl, hk, hv⟩
    dsimp only
    rw [hr.peek_kind]
    split
    · next hclose =>
      refine .of_some hr.advance fun h => ?_
      obtain ⟨hp', k, v, rfl, rfl, hk, hv⟩ := hpair h
      refine ⟨hp', [(k, v)], _, rfl, rfl, ?_⟩
      rw [behind_advance (by simp [hclose])]
      exact hk.bind (hv.bind ((Takes.pure [] _).bind (.pure _ _)))
    · refine .expect hr (fun _ _ => .of_not) fun hcomma => ?_
      refine .bind (ih.pairs hr.advance) fun rest rest' u u' hu hrest => .of_some hu fun h => ?_
      obtain ⟨hr', ps, rs, rfl, rfl, hps⟩ := hrest h
      obtain ⟨hp', k, v, rfl, rfl, hk, hv⟩ := hpair hr'
      rw [behind_advance (by simp [hcomma])] at hps
      exact ⟨hp', (k, v) :: ps, _, rfl, rfl, hk.bind (hv.bind (hps.bind (.pure _ _)))⟩

theorem conditional_succ (ih : AllAgree n) (hp : p.Mended p') (hif : p.current.kind = .ifWord) :
    Agree (Cleanly p' (Keeps Expr.keep p.here)) (Production.conditional (n + 1) p)
      (Production.conditional (n + 1) p') := by
  rw [Production.conditional, Production.conditional]
  refine .bind (ih.expression _ hp.advance) fun test test' q q' hq htest => ?_
  refine .expect hq (fun _ _ => .of_not) fun hopen => ?_
  refine .bind (ih.statements _ hq.advance.advance) fun yes yes' r r' hr hyes => ?_
  -- the test and the first block, if nothing is reported up to here
  have hfirst : r'.Clean → p'.Clean ∧ ∃ c, test' = some c ∧
      Takes c.keep test p.here q.behind ∧ Takes (keepBlock yes') yes q.behind r.behind := by
    intro h
    obtain ⟨hq', hblock⟩ := hyes h
    obtain ⟨hp', c, rfl, hc⟩ := htest hq'
    rw [here_advance, behind_eq_here (by simp [hif])] at hc
    rw [here_advance, behind_advance (by simp [hopen])] at hblock
    exact ⟨hp', c, rfl, hc, hblock⟩
  dsimp only
  rw [hr.peek_kind]
  split
  · next helse =>
    refine .expect hr.advance (fun _ _ => .of_not) fun hopen' => ?_
    refine .bind (ih.statements _ hr.advance.advance.advance) fun no no' u u' hu hno => ?_
    refine .of_some hu fun h => ?_
    obtain ⟨hr', hblock⟩ := hno h
    obtain ⟨hp', c, rfl, hc, hyes⟩ := hfirst hr'
    rw [here_advance, behind_advance (by simp [hopen']), behind_advance (by simp [helse])] at hblock
    exact ⟨hp', .cond c yes' (some no'), rfl, hc.bind (hyes.bind (hblock.bind (.pure _ _)))⟩
  · refine .of_some hr fun h => ?_
    obtain ⟨hp', c, rfl, hc, hyes⟩ := hfirst h
    exact ⟨hp', .cond c yes' none, rfl, hc.bind (hyes.bind (.pure _ _))⟩

theorem function_succ (ih : AllAgree n) (hp : p.Mended p') (hfn : p.current.kind = .fnWord) :
    Agree (Cleanly p' (Keeps Expr.keep p.here)) (Production.function (n + 1) p)
      (Production.function (n + 1) p') := by
  rw [Production.function, Production.function]
  refine .expect hp (fun _ _ => .of_not) fun hparen => ?_
  refine .bind (parameters_agree hp.advance) fun params params' q q' hq hparams => ?_
  obtain ⟨rfl, hclean⟩ := hparams
  cases params' with
  | none =>
    refine .of_some hq fun h => ?_
    obtain ⟨-, hsome, -⟩ := hclean h
    cases hsome
  | some params =>
    refine .expect hq (fun _ _ => .of_not) fun hopen => ?_
    refine .bind (ih.statements _ hq.advance.advance) fun body body' r r' hr hbody => ?_
    refine .of_some hr fun h => ?_
    obtain ⟨hq', hblock⟩ := hbody h
    obtain ⟨hp', -, hbehind⟩ := hclean hq'
    rw [here_advance, behind_advance (by simp [hopen]), hbehind, behind_advance (by simp [hparen]),
      behind_eq_here (by simp [hfn])] at hblock
    exact ⟨hp', .fn () params body', rfl, hblock.bind (.pure _ _)⟩

/-- A statement that holds an integer too large has no tree, and `keepBlock` leaves it out as the
parser does. -/
theorem statements_succ (ih : AllAgree n) (inBlock : Bool) (hp : p.Mended p') :
    Agree (Cleanly p' fun b b' q => Takes (keepBlock b') b p.here q.behind)
      (Production.statements (n + 1) inBlock p) (Production.statements (n + 1) inBlock p') := by
  rw [Production.statements, Production.statements, hp.current_kind]
  split
  · next hend =>
    have hne : p.current.kind ≠ .int := by rcases hend with h | ⟨-, h⟩ <;> simp [h]
    refine .of_some hp fun h => ⟨h, ?_⟩
    show Takes (keepBlock []) [] p.here p.behind
    rw [behind_eq_here hne]
    exact .pure _ _
  · refine .bind (ih.statement hp) fun s s' q q' hq hs => ?_
    refine .bind (ih.statements _ hq.advance) fun rest rest' r r' hr hrest => .of_some hr fun h => ?_
    obtain ⟨hq', hblock⟩ := hrest h
    obtain ⟨hp', t, rfl, ht⟩ := hs hq'
    exact ⟨hp', ht.bind (hblock.bind (.pure _ _))⟩

/-- A statement made of an expression, with the semicolon after it. -/
theorem terminated {l : Ledger} {q' : Cursor} {m m' : Option (Option (Expr Unit) × Cursor)}
    {f : Expr Unit → Stmt Unit} (hm : Agree (Cleanly q' (Keeps Expr.keep l)) m m')
    (hstart : q'.Clean → p'.Clean)
    (hf : ∀ x, (f x).keep = x.keep >>= fun y => pure (y.map f)) :
    Agree (Cleanly p' (Keeps Stmt.keep l))
      (m >>= fun (x, q) => some (x.map f, q.skipTerminator))
      (m' >>= fun (x, q) => some (x.map f, q.skipTerminator)) := by
  refine .bind hm fun x x' r r' hr hx => .of_some hr.skipTerminator fun h => ?_
  obtain ⟨hq', y, rfl, hy⟩ := hx ((clean_skipTerminator r').mp h)
  refine ⟨hstart hq', f y, rfl, ?_⟩
  rw [hf, behind_skipTerminator]
  exact hy.bind (.pure _ _)

theorem statement_succ (ih : AllAgree n) (hp : p.Mended p') :
    Agree (Cleanly p' (Keeps Stmt.keep p.here)) (Production.statement (n + 1) p)
      (Production.statement (n + 1) p') := by
  rw [Production.statement, Production.statement, hp.current_kind]
  split
  · next hlet =>
    refine .expect hp (fun _ _ => .of_not) fun hident => ?_
    refine .expect hp.advance (fun _ _ => .of_not) fun hassign => ?_
    have hne : p.advance.current.kind ≠ .int := by
      show p.peek.kind ≠ .int
      simp [hident]
    rw [hp.advance.current_literal hne]
    have hexpression := ih.expression .lowest hp.advance.advance.advance
    rw [here_advance, behind_advance (by simp [hassign]), behind_advance (by simp [hident]),
      behind_eq_here (by simp [hlet])] at hexpression
    exact terminated hexpression id fun x => rfl
  · next hreturn =>
    have hexpression := ih.expression .lowest hp.advance
    rw [here_advance, behind_eq_here (by simp [hreturn])] at hexpression
    exact terminated hexpression id fun x => rfl
  · exact terminated (ih.expression _ hp) id fun x => rfl

end AllAgree

/-- **Productions read a source and its mended form in step.** -/
theorem agree (n : Nat) : AllAgree n := by
  induction n with
  | zero => constructor <;> intros <;> exact .none
  | succ n ih =>
    exact {
      expression := ih.expression_succ
      operand := ih.operand_succ
      operators := ih.operators_succ
      extend := ih.extend_succ
      elements := ih.elements_succ
      moreElements := ih.moreElements_succ
      pairs := ih.pairs_succ
      conditional := ih.conditional_succ
      function := ih.function_succ
      statements := ih.statements_succ
      statement := ih.statement_succ }

end Production

/-! ## Whole sources -/

theorem Cursor.mended_ofSource (source : String) :
    (Cursor.ofSource source).Mended (Cursor.ofSource (mend source)) :=
  ⟨words_mend source, rfl⟩

theorem tokenize_eq (source : String) :
    tokenize source =
      (Cursor.ofSource source).tokens ++ [Token.ending (Cursor.ofSource source).stop] :=
  rfl

/-- The words of all tokens of a mended source. -/
theorem words_tokenize_mend (source : String) :
    (tokenize (mend source)).map Token.word = (tokenize source).map Token.mendedWord := by
  rw [tokenize_eq, tokenize_eq, List.map_append, List.map_append,
    (Cursor.mended_ofSource source).words]
  rfl

/-- Before the first token all integers are to come. -/
theorem Cursor.here_ofSource (source : String) :
    (Cursor.ofSource source).here = ⟨flags (tokenize source), complaints (tokenize source)⟩ := by
  rw [tokenize_eq]
  simp [here, flags, complaints, Token.tooLarge, diagnostics, ofSource]

/-- **An integer that is too large never derails the parser.** Let a source be mended, with `0` in
place of each integer that is too large; its tokens say the same otherwise. Without the reports about
such integers, the diagnostics of the source are those of the mended source. If the mended source
has none, there is one report for each such integer, in the order of the source, and the program is
that of the mended source without the innermost statement around each of them. -/
theorem large_integers_do_not_derail (source : String) :
    (tokenize (mend source)).map Token.word = (tokenize source).map Token.mendedWord ∧
      (parse source).diagnostics.filter (!·.isBadInteger) = (parse (mend source)).diagnostics ∧
      ((parse (mend source)).diagnostics = [] →
        (parse source).diagnostics = complaints (tokenize source) ∧
          (keepBlock (parse (mend source)).program).run (flags (tokenize source)) =
            ((parse source).program, [])) := by
  have hmended := Cursor.mended_ofSource source
  have hagree := (Production.agree (Cursor.ofSource source).depth).statements false hmended
  rw [Cursor.program_eq, ← hmended.depth_eq, Cursor.program_eq] at hagree
  cases hagree with
  | some hboth =>
    obtain ⟨hend, hclean⟩ := hboth
    refine ⟨words_tokenize_mend source, hend.diagnostics.symm, fun hnone => ?_⟩
    obtain ⟨-, htakes⟩ := hclean ((Cursor.clean_iff _).mpr hnone)
    -- without a report the mended source is read to its end, and so is the source
    obtain ⟨-, hread⟩ := (Production.sound _).statements (Cursor.program_eq _)
      ((diagnostics_eq_nil_iff (mend source)).mp hnone) (Cursor.noEnd_ofSource (mend source))
    have htokens : (Cursor.ofSource source).program.2.tokens = [] := by
      have hwords := hend.words
      rcases hread with hnil | ⟨hblock, -⟩
      · rw [hnil] at hwords
        exact List.map_eq_nil_iff.mp hwords.symm
      · cases hblock
    have hbehind : (Cursor.ofSource source).program.2.behind = ⟨[], (parse source).diagnostics⟩ := by
      rw [Cursor.behind, htokens]
      exact congrArg (Ledger.mk []) (List.append_nil _)
    rw [Cursor.here_ofSource, hbehind] at htakes
    exact ⟨htakes.reports, htakes.flags⟩

/-- The first of two integers is too large: the statement of the body goes, the function stays. -/
example : (keepBlock [.expr (.fn () ["x"] [.ret (.int 0), .expr (.name "x")]), .expr (.int 5)]).run
    [true, false] = ([.expr (.fn () ["x"] [.expr (.name "x")]), .expr (.int 5)], []) := rfl

end ClosureLang
