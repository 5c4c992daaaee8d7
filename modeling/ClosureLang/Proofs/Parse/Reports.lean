import ClosureLang.Proofs.Parse.Recursion
import ClosureLang.Proofs.Tree.Shape

/-!
# A missing tree is reported, and a tree that is there is not

A production that gives no tree has reported why. A production that gives a tree has reported
nothing, unless it read a block: the statements of a block that fail are left out, and the tree of
which the block is a part is kept. `Tells free k o j` says this of what a production gave, `o`, if
there were `k` reports before it and `j` after it; `free` are the trees without a block.

Main statement: `reports_tell`. So a source without diagnostics has lost no statement, at the top or
in a block: each statement that was read heads the list that the reading of its block or of the
source gives (`Reached.statements_kept`), and the program is a derivation of all the tokens.
-/

namespace ClosureLang

/-- Reports do not become fewer, without a tree they become more, and with a tree that is `free`
they do not. -/
structure Tells {α : Type} (free : α → Bool) (k : Nat) (o : Option α) (j : Nat) : Prop where
  le : k ≤ j
  lost : o = none → k < j
  kept : ∀ x, o = some x → free x = true → j = k

namespace Tells

variable {α β : Type} {free : α → Bool} {k j i : Nat} {o : Option α}

theorem some (x : α) : Tells free k (some x) k where
  le := Nat.le_refl k
  lost := fun h => by cases h
  kept := fun _ _ _ => rfl

theorem none (h : k < j) : Tells free k none j where
  le := Nat.le_of_lt h
  lost := fun _ => h
  kept := fun x hx => by cases hx

/-- A report tells of a tree that is missing. -/
theorem record {p : Cursor} (h : k ≤ p.reports.size) (d : Diagnostic) :
    Tells free k Option.none (p.record d).reports.size := by
  rw [Cursor.size_record]
  exact .none (Nat.lt_succ_of_le h)

/-- A tree made of another one, which is free if the new one is. -/
theorem map {free' : β → Bool} {f : α → β} (h : Tells free k o j)
    (hf : ∀ x, free' (f x) = true → free x = true) : Tells free' k (o.map f) j where
  le := h.le
  lost := fun ho => h.lost (Option.map_eq_none_iff.mp ho)
  kept := by
    intro y hy hfree
    obtain ⟨x, hx, rfl⟩ := Option.map_eq_some_iff.mp hy
    exact h.kept x hx (hf x hfree)

/-- A tree that is not free may have been completed with more reports. -/
theorem complete {free' : β → Bool} {f : α → β} (h : Tells free k o j) (hji : j ≤ i)
    (hf : ∀ x, free' (f x) = false) : Tells free' k (o.map f) i where
  le := Nat.le_trans h.le hji
  lost := fun ho => Nat.lt_of_lt_of_le (h.lost (Option.map_eq_none_iff.mp ho)) hji
  kept := by
    intro y hy hfree
    obtain ⟨x, _, rfl⟩ := Option.map_eq_some_iff.mp hy
    rw [hf x] at hfree
    cases hfree

/-- Two trees, the second of which was read after the first. -/
theorem both {free' : β → Bool} {o' : Option β} (h : Tells free k o j) (h' : Tells free' j o' i) :
    Tells (fun e => free e.1 && free' e.2) k (ClosureLang.both o o') i := by
  cases o with
  | none => exact .none (Nat.lt_of_lt_of_le (h.lost rfl) h'.le)
  | some x =>
    cases o' with
    | none => exact .none (Nat.lt_of_le_of_lt h.le (h'.lost rfl))
    | some y =>
      refine ⟨Nat.le_trans h.le h'.le, fun ho => (by cases ho), ?_⟩
      intro e he hfree
      cases he
      rw [Bool.and_eq_true] at hfree
      rw [h'.kept y rfl hfree.2, h.kept x rfl hfree.1]

end Tells

theorem allSome_cons {α : Type} (x : Option α) (xs : List (Option α)) :
    allSome (x :: xs) = (both x (allSome xs)).map fun e => e.1 :: e.2 := by
  cases x <;> cases h : allSome xs <;> simp [allSome, both, h]

/-- The pairs of a hash literal, the first one apart. -/
theorem bind_allSome_cons {α : Type} (x : Option α) (xs : Option (List (Option α))) :
    (xs.map (x :: ·)).bind allSome = (both x (xs.bind allSome)).map fun e => e.1 :: e.2 := by
  cases xs with
  | none => cases x <;> rfl
  | some xs => exact allSome_cons x xs

namespace Production

/-- What a bounded production gives, seen through `view`, tells whether it reported. -/
def Telling {α β : Type} (view : β → Option α) (free : α → Bool) (k : Nat)
    (m : Option (β × Cursor)) : Prop :=
  ∀ b q, m = some (b, q) → Tells free k (view b) q.reports.size

namespace Telling

variable {α β γ δ : Type} {view : β → Option α} {free : α → Bool} {view' : δ → Option γ}
  {free' : γ → Bool} {k j : Nat} {p : Cursor}

theorem of_some {b : β} (h : Tells free k (view b) p.reports.size) :
    Telling view free k (some (b, p)) := by
  intro c q hc
  cases hc
  exact h

theorem of_none : Telling view free k (none : Option (β × Cursor)) := by
  intro b q h
  cases h

/-- Productions in a row: the second knows what the reports tell of the first. -/
theorem bind {m : Option (β × Cursor)} {f : β × Cursor → Option (δ × Cursor)}
    (h : Telling view free k m)
    (hf : ∀ b q, Tells free k (view b) q.reports.size → Telling view' free' j (f (b, q))) :
    Telling view' free' j (m >>= f) := by
  intro d r hr
  obtain ⟨⟨b, q⟩, hm, hd⟩ := Option.bind_eq_some_iff.mp hr
  exact hf b q (h b q hm) d r hd

/-- What happens after a block, of which nothing is known but that reports do not become fewer. -/
theorem block {m : Option (δ × Cursor)} {f : δ × Cursor → Option (β × Cursor)}
    (hm : Moving p m)
    (hf : ∀ d q, p.reports.size ≤ q.reports.size → Telling view free k (f (d, q))) :
    Telling view free k (m >>= f) := by
  intro b r hr
  obtain ⟨⟨d, q⟩, hd, hb⟩ := Option.bind_eq_some_iff.mp hr
  exact hf d q (hm d q hd).size_le b r hb

/-- What happens after a wanted token, if there is nothing without it. -/
theorem expect {view : Option β → Option α} {kind : TokenKind}
    {yes : Cursor → Option (Option β × Cursor)} (hview : view none = none)
    (hp : k ≤ p.reports.size) (hyes : Telling view free k (yes p.advance)) :
    Telling view free k (match p.expect kind with
      | (false, q) => some (none, q)
      | (true, q) => yes q) := by
  rcases p.expect_cases kind with ⟨_, he⟩ | ⟨_, he⟩ <;> rw [he]
  · exact hyes
  · refine .of_some ?_
    rw [hview]
    exact .record hp _

end Telling

/-! ## Parameters -/

theorem names_telling : ∀ (n : Nat) (p : Cursor),
    Telling id (fun _ => true) p.reports.size (names n p) := by
  intro n
  induction n with
  | zero => exact fun p => .of_none
  | succ n ih =>
    intro p
    rw [names]
    split
    · split
      · exact (ih p.advance.advance).bind fun rest q hrest => .of_some (hrest.map fun _ _ => rfl)
      · exact .of_some (.some _)
    · exact .of_some (.record (Nat.le_refl _) _)

theorem parameters_telling (n : Nat) (p : Cursor) :
    Telling id (fun _ => true) p.reports.size (parameters n p) := by
  rw [parameters]
  split
  · exact .of_some (.some _)
  · refine (names_telling n p.advance).bind fun params q hparams => ?_
    cases params with
    | none => exact .of_some hparams
    | some params =>
      exact .expect rfl hparams.le (.of_some hparams)

/-! ## Expressions and statements -/

/-- What every production that may go `n` calls deep gives tells whether it reported. -/
structure AllTelling (n : Nat) : Prop where
  expression : ∀ min p, Telling id Expr.blockless p.reports.size (expression n min p)
  operand : ∀ lead p, Telling id Expr.blockless p.reports.size (operand n lead p)
  operators : ∀ min left p k, Tells Expr.blockless k left p.reports.size →
    Telling id Expr.blockless k (operators n min left p)
  extend : ∀ follow left p k, Tells Expr.blockless k left p.reports.size →
    Telling id Expr.blockless k (extend n follow left p)
  elements : ∀ close p, Telling id blocklessExprs p.reports.size (elements n close p)
  moreElements : ∀ p, Telling allSome blocklessExprs p.reports.size (moreElements n p)
  pairs : ∀ p, Telling (·.bind allSome) blocklessPairs p.reports.size (pairs n p)
  conditional : ∀ p, Telling id Expr.blockless p.reports.size (conditional n p)
  function : ∀ p, Telling id Expr.blockless p.reports.size (function n p)

namespace AllTelling

variable {n : Nat}

theorem expression_succ (ih : AllTelling n) (min : Precedence) (p : Cursor) :
    Telling id Expr.blockless p.reports.size (Production.expression (n + 1) min p) := by
  rw [Production.expression]
  split
  · exact .of_some (.record (Nat.le_refl _) _)
  · next lead _ => exact (ih.operand lead p).bind fun left q hleft => ih.operators min left q _ hleft

theorem operand_succ (ih : AllTelling n) (lead : Lead) (p : Cursor) :
    Telling id Expr.blockless p.reports.size (Production.operand (n + 1) lead p) := by
  cases lead <;> rw [Production.operand]
  case name => exact .of_some (.some _)
  case integer =>
    split
    · exact .of_some (.some _)
    · exact .of_some (.record (Nat.le_refl _) _)
  case text => exact .of_some (.some _)
  case truth b => exact .of_some (.some _)
  case unary op =>
    exact (ih.expression _ p.advance).bind fun x q hx =>
      .of_some (hx.map fun y hy => by simpa [Expr.blockless] using hy)
  case group =>
    exact (ih.expression _ p.advance).bind fun x q hx => .expect rfl hx.le (.of_some hx)
  case array =>
    exact (ih.elements _ p).bind fun xs q hxs =>
      .of_some (hxs.map fun ys hys => by simpa [Expr.blockless] using hys)
  case hash =>
    exact (ih.pairs p).bind fun ps q hps =>
      .of_some (hps.map fun es hes => by simpa [Expr.blockless] using hes)
  case conditional => exact ih.conditional p
  case function => exact ih.function p

/-- The loop passes on what the reports tell of the operand on the left. -/
theorem operators_succ (ih : AllTelling n) (min : Precedence) (left : Option (Expr Unit))
    (p : Cursor) (k : Nat) (hleft : Tells Expr.blockless k left p.reports.size) :
    Telling id Expr.blockless k (Production.operators (n + 1) min left p) := by
  rw [Production.operators]
  split
  · split
    · exact .of_some hleft
    · next follow _ =>
      exact (ih.extend follow left p.advance k hleft).bind fun left q hleft =>
        ih.operators min left q k hleft
  · exact .of_some hleft

theorem extend_succ (ih : AllTelling n) (follow : Follow) (left : Option (Expr Unit)) (p : Cursor)
    (k : Nat) (hleft : Tells Expr.blockless k left p.reports.size) :
    Telling id Expr.blockless k (Production.extend (n + 1) follow left p) := by
  cases follow <;> rw [Production.extend]
  case operation op =>
    exact (ih.expression _ p.advance).bind fun right q hright =>
      .of_some ((hleft.both hright).map fun e h => by simpa [Expr.blockless] using h)
  case call =>
    exact (ih.elements _ p).bind fun args q hargs =>
      .of_some ((hleft.both hargs).map fun e h => by simpa [Expr.blockless] using h)
  case index =>
    refine (ih.expression _ p.advance).bind fun key q hkey => ?_
    refine .expect rfl (Nat.le_trans hleft.le hkey.le) (.of_some ?_)
    exact (hleft.both hkey).map fun e h => by simpa [Expr.blockless] using h

theorem elements_succ (ih : AllTelling n) (close : TokenKind) (p : Cursor) :
    Telling id blocklessExprs p.reports.size (Production.elements (n + 1) close p) := by
  rw [Production.elements]
  split
  · exact .of_some (.some _)
  · refine (ih.expression _ p.advance).bind fun first q hfirst => ?_
    refine (ih.moreElements q).bind fun rest r hrest => ?_
    refine .expect rfl (Nat.le_trans hfirst.le hrest.le) (.of_some ?_)
    rw [id, allSome_cons]
    exact (hfirst.both hrest).map fun e h => by simpa [blocklessExprs] using h

theorem moreElements_succ (ih : AllTelling n) (p : Cursor) :
    Telling allSome blocklessExprs p.reports.size (Production.moreElements (n + 1) p) := by
  rw [Production.moreElements]
  split
  · refine (ih.expression _ p.advance.advance).bind fun x q hx => ?_
    refine (ih.moreElements q).bind fun rest r hrest => .of_some ?_
    rw [allSome_cons]
    exact (hx.both hrest).map fun e h => by simpa [blocklessExprs] using h
  · exact .of_some (.some _)

theorem pairs_succ (ih : AllTelling n) (p : Cursor) :
    Telling (·.bind allSome) blocklessPairs p.reports.size (Production.pairs (n + 1) p) := by
  rw [Production.pairs]
  split
  · exact .of_some (.some _)
  · refine (ih.expression _ p.advance).bind fun key q hkey => ?_
    refine .expect rfl hkey.le ?_
    refine (ih.expression _ q.advance.advance).bind fun value r hvalue => ?_
    dsimp only
    -- The pair that was read, before the pairs after it.
    have hpair : ∀ (rest : Option (List (Option (Expr Unit × Expr Unit)))) {i : Nat},
        Tells blocklessPairs r.reports.size (rest.bind allSome) i →
        Tells blocklessPairs p.reports.size ((rest.map (both key value :: ·)).bind allSome) i := by
      intro rest i hrest
      rw [bind_allSome_cons]
      exact ((hkey.both hvalue).both hrest).map fun e h => by simpa [blocklessPairs] using h
    split
    · exact .of_some (hpair (some []) (.some []))
    · refine .expect rfl (Nat.le_trans hkey.le hvalue.le) ?_
      exact (ih.pairs r.advance).bind fun rest s hrest => .of_some (hpair rest hrest)

theorem conditional_succ (ih : AllTelling n) (p : Cursor) :
    Telling id Expr.blockless p.reports.size (Production.conditional (n + 1) p) := by
  rw [Production.conditional]
  refine (ih.expression _ p.advance).bind fun test q htest => ?_
  refine .expect rfl htest.le ?_
  refine .block ((Production.moves n).statements true q.advance.advance) fun yes r hr => ?_
  dsimp only
  split
  · refine .expect rfl (Nat.le_trans htest.le hr) ?_
    refine .block ((Production.moves n).statements true r.advance.advance.advance) fun no s hs => ?_
    exact .of_some (htest.complete (Nat.le_trans hr hs) fun _ => rfl)
  · exact .of_some (htest.complete hr fun _ => rfl)

theorem function_succ (p : Cursor) :
    Telling id Expr.blockless p.reports.size (Production.function (n + 1) p) := by
  rw [Production.function]
  refine .expect rfl (Nat.le_refl _) ?_
  refine (parameters_telling n p.advance).bind fun params q hparams => ?_
  cases params with
  | none => exact .of_some (.none (hparams.lost rfl))
  | some params =>
    refine .expect rfl hparams.le ?_
    refine .block ((Production.moves n).statements true q.advance.advance) fun body r hr => ?_
    exact .of_some (hparams.complete (f := fun params => Expr.fn () params body) hr fun _ => rfl)

end AllTelling

/-- **What a production gives tells whether it reported.** -/
theorem telling (n : Nat) : AllTelling n := by
  induction n with
  | zero => constructor <;> intros <;> exact .of_none
  | succ n ih =>
    exact {
      expression := ih.expression_succ
      operand := ih.operand_succ
      operators := ih.operators_succ
      extend := ih.extend_succ
      elements := ih.elements_succ
      moreElements := ih.moreElements_succ
      pairs := ih.pairs_succ
      conditional := ih.conditional_succ
      function := AllTelling.function_succ }

theorem size_skipTerminator (p : Cursor) : p.skipTerminator.reports.size = p.reports.size := by
  unfold Cursor.skipTerminator
  split <;> rfl

theorem statement_telling (n : Nat) (p : Cursor) :
    Telling id Stmt.blockless p.reports.size (statement n p) := by
  cases n with
  | zero => exact .of_none
  | succ n =>
    -- The statement that is made of an expression, with the semicolon after it.
    have hof : ∀ (f : Expr Unit → Stmt Unit) (q : Cursor), q.reports.size = p.reports.size →
        (∀ x, (f x).blockless = x.blockless) →
        Telling id Stmt.blockless p.reports.size
          (expression n .lowest q >>= fun y => some (y.1.map f, y.2.skipTerminator)) := by
      intro f q hq hf
      refine ((telling n).expression .lowest q).bind fun x r hx => .of_some ?_
      rw [size_skipTerminator, ← hq]
      exact hx.map fun y hy => by rw [← hf y]; exact hy
    rw [statement]
    split
    · refine .expect rfl (Nat.le_refl _) ?_
      refine .expect rfl (Nat.le_refl _) ?_
      exact hof _ _ rfl fun _ => rfl
    · exact hof .ret _ rfl fun _ => rfl
    · exact hof .expr _ rfl fun _ => rfl

end Production

/-! ## Whole sources -/

namespace Cursor

theorem expression_eq (p : Cursor) (min : Precedence) :
    Production.expression p.depth min p = some (p.expression min) :=
  (Option.some_get (p.expression_isSome min)).symm

theorem statement_eq (p : Cursor) : Production.statement p.depth p = some p.statement :=
  (Option.some_get p.statement_isSome).symm

/-- Reports that are not more than there were are those that there were. -/
theorem Moves.reports_eq {p q : Cursor} (h : p.Moves q) (hsize : q.reports.size = p.reports.size) :
    q.reports = p.reports := by
  have hlist : p.reports.toList = q.reports.toList :=
    h.reports.eq_of_length (by simpa using hsize.symm)
  exact Array.toList_inj.mp hlist.symm

end Cursor

/-- A statement that is read on a source without diagnostics is kept. -/
theorem Reached.statement_kept {source : String} (hsource : (parse source).diagnostics = [])
    {p : Cursor} (h : Reached source (.statement p)) : p.statement.1.isSome := by
  obtain ⟨n, r, hrun, hr⟩ := h.run
  obtain ⟨s, hs⟩ := map_snd_eq_some.mp hrun
  have heq := Production.Refines.unique (fun n => (Production.refines n).statement p)
    hs p.statement_eq
  have htell := Production.statement_telling n p s r hs
  cases s with
  | some s =>
    rw [← heq]
    rfl
  | none =>
    -- A report that the statement has made is there at the end of the source.
    have hlost := htell.lost rfl
    have hquiet := (diagnostics_eq_nil_iff source).mp hsource
    have hend := hr.size_le
    have hstart : (Cursor.ofSource source).reports.size = 0 := rfl
    unfold Cursor.Quiet at hquiet
    omega

/-- One step of reading statements: what the statement on which the cursor stands gives, and the
statements after it. -/
theorem Cursor.statements_of_goes {inBlock : Bool} {p : Cursor}
    (hgoes : ¬ (p.current.kind = .eof ∨ inBlock = true ∧ p.current.kind = .rbrace)) :
    (p.statements inBlock).1 =
      p.statement.1.toList ++ (p.statement.2.advance.statements inBlock).1 := by
  have hrefines := Production.refines
  let next := p.statement.2.advance
  -- Under a bound that is enough for both, the production takes the same two results.
  let n := max p.depth next.depth
  have hfirst : Production.statement n p = some p.statement :=
    Production.Refines.keep (fun n => (hrefines n).statement p) (Nat.le_max_left _ _)
      p.statement_eq
  have hrest : Production.statements n inBlock next = some (next.statements inBlock) :=
    Production.Refines.keep (fun n => (hrefines n).statements inBlock next) (Nat.le_max_right _ _)
      (next.statements_eq inBlock)
  have hstep : Production.statements (n + 1) inBlock p =
      some (p.statement.1.toList ++ (next.statements inBlock).1, (next.statements inBlock).2) := by
    rw [Production.statements, if_neg hgoes, hfirst]
    exact congrArg (Option.bind · fun y => some (p.statement.1.toList ++ y.1, y.2)) hrest
  exact congrArg Prod.fst (Production.Refines.unique
    (fun n => (hrefines n).statements inBlock p) (p.statements_eq inBlock) hstep)

/-- Where statements are read on a source without diagnostics, the statement that is read first
heads the list, and the list goes on with all those that are read after it. -/
theorem Reached.statements_kept {source : String} (hsource : (parse source).diagnostics = [])
    {inBlock : Bool} {p : Cursor} (h : Reached source (.statements inBlock p))
    (hgoes : ¬ (p.current.kind = .eof ∨ inBlock = true ∧ p.current.kind = .rbrace)) :
    ∃ s, p.statement.1 = some s ∧
      (p.statements inBlock).1 = s :: (p.statement.2.advance.statements inBlock).1 := by
  have hkept := Reached.statement_kept hsource (h.tail (.statement hgoes))
  obtain ⟨s, hs⟩ := Option.isSome_iff_exists.mp hkept
  refine ⟨s, hs, ?_⟩
  rw [Cursor.statements_of_goes hgoes, hs, Option.toList_some, List.singleton_append]

/-- **Nothing is lost without a report, and nothing that is kept is reported.** Wherever an
expression or a statement is read, reports are only added; if there is no tree, at least one is; if
there is a tree without a conditional and a function literal in it, none is. So if a source has no
diagnostics, every statement that is read on it gives a tree, and wherever statements are read, at
the top or in a block, the tree of the first one heads the list that is given and the list goes on
with those read after it. The program is the list given at the top, and all tokens of the source
derive it, so no block was left out of a tree either. -/
theorem reports_tell (source : String) :
    (∀ (p : Cursor) (min : Precedence),
      p.reports.toList <+: (p.expression min).2.reports.toList ∧
      ((p.expression min).1 = none → p.reports.size < (p.expression min).2.reports.size) ∧
      ∀ x, (p.expression min).1 = some x → x.blockless = true →
        (p.expression min).2.reports = p.reports) ∧
    (∀ p : Cursor,
      p.reports.toList <+: p.statement.2.reports.toList ∧
      (p.statement.1 = none → p.reports.size < p.statement.2.reports.size) ∧
      ∀ s, p.statement.1 = some s → s.blockless = true → p.statement.2.reports = p.reports) ∧
    ((parse source).diagnostics = [] →
      (∀ p, Reached source (.statement p) → p.statement.1.isSome) ∧
      (∀ inBlock p, Reached source (.statements inBlock p) →
        ¬ (p.current.kind = .eof ∨ inBlock = true ∧ p.current.kind = .rbrace) →
        ∃ s, p.statement.1 = some s ∧
          (p.statements inBlock).1 = s :: (p.statement.2.advance.statements inBlock).1) ∧
      (parse source).program = ((Cursor.ofSource source).statements false).1 ∧
      Grammar.Program (tokenize source).dropLast (parse source).program) := by
  refine ⟨fun p min => ?_, fun p => ?_, fun h => ⟨fun p => Reached.statement_kept h,
    fun inBlock p => Reached.statements_kept h, rfl, program_of_diagnostics_eq_nil h⟩⟩
  · have hmoves := (Production.moves _).expression min p _ _ (p.expression_eq min)
    have htell := (Production.telling _).expression min p _ _ (p.expression_eq min)
    exact ⟨hmoves.reports, htell.lost, fun x hx hfree => hmoves.reports_eq (htell.kept x hx hfree)⟩
  · have hmoves := (Production.moves _).statement p _ _ p.statement_eq
    have htell := Production.statement_telling _ p _ _ p.statement_eq
    exact ⟨hmoves.reports, htell.lost, fun s hs hfree => hmoves.reports_eq (htell.kept s hs hfree)⟩

end ClosureLang
