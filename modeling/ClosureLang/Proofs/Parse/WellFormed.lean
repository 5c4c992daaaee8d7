import ClosureLang.Proofs.Parse.Exact
import ClosureLang.Proofs.Token.Spans
import ClosureLang.Proofs.Tree.Shape

/-!
# What the parser returns is well formed

Tokens are legible: a token of a name holds a name, and a string holds no quote. A production makes
trees of the literals of its tokens, so all trees that it builds are well formed, those that it
builds while it reports errors too. `Builds P m` is that the bounded production `m` gives something
with `P` and leaves legible tokens.

Main statement: `wellFormed_program`.
-/

namespace ClosureLang

/-! ## Legible tokens -/

/-- The literal of a token is what its kind calls for. -/
structure Token.Legible (t : Token) : Prop where
  name : t.kind = .ident → isName t.literal = true
  text : t.kind = .string → t.literal.toList.all (· != '"') = true

/-- A word that is no keyword is a name. -/
theorem Lexeme.isName_of_ident {c : Char} {cs : List Char}
    (h : (Lexeme.read c cs).1.kind = .ident) :
    isName (String.ofList (Lexeme.read c cs).1.literal) = true := by
  have hreads := Lexeme.reads c cs
  generalize Lexeme.read c cs = r at h hreads
  cases hreads with
  | pair _ hk => exact absurd h (ne_of_mem_of_not_mem (pairKind?_mem hk) (by decide))
  | symbol _ hk => exact absurd h (ne_of_mem_of_not_mem (symbolKind?_mem hk) (by decide))
  | word hletter =>
    have htail : (cs.takeWhile isLetter).all isLetter = true := List.all_takeWhile
    have hkind : wordKind (String.ofList (c :: cs.takeWhile isLetter)) = .ident := h
    rw [isName, hkind, String.toList_ofList]
    simp [hletter, htail]
  | _ => cases h

/-- Every token that is scanned is legible: the literal is as its kind asks. -/
theorem Scanner.legible_of_mem {s : Scanner} {t : Token} (ht : t ∈ s.tokens) : t.Legible := by
  induction s using Scanner.tokens.induct with
  | case1 s h =>
    rw [tokens_of_nil h] at ht
    cases ht
  | case2 s c cs h ih =>
    rw [tokens_of_cons h] at ht
    rcases List.mem_cons.mp ht with rfl | ht
    · simp only [read, h]
      refine ⟨Lexeme.isName_of_ident, fun hkind => ?_⟩
      have hquote := ((Lexeme.written c cs).quoted hkind).1
      simpa [List.all_eq_true] using fun d hd (hd' : d = '"') => hquote (hd' ▸ hd)
    · exact ih ht

namespace Cursor

/-- All tokens that are left are legible. -/
def Legible (p : Cursor) : Prop := ∀ t ∈ p.tokens, t.Legible

namespace Legible

variable {p : Cursor}

/-- A cursor that has moved on has fewer tokens left, all of them legible. -/
theorem advance (h : p.Legible) : p.advance.Legible := fun t ht => h t (List.mem_of_mem_tail ht)

theorem record (h : p.Legible) (d : Diagnostic) : (p.record d).Legible := h

theorem skipTerminator (h : p.Legible) : p.skipTerminator.Legible := by
  unfold Cursor.skipTerminator
  split
  · exact h.advance
  · exact h

/-- The current token is legible; so is the token that ends the source. -/
theorem current (h : p.Legible) : p.current.Legible := by
  cases htokens : p.tokens with
  | nil => constructor <;> simp [Cursor.current, htokens]
  | cons t ts =>
    rw [current_of_tokens htokens]
    exact h t (by simp [htokens])

end Legible

end Cursor

/-! ## Trees put together -/

theorem wellFormedExprs_iff {τ : Type} {xs : List (Expr τ)} :
    wellFormedExprs xs = true ↔ ∀ x ∈ xs, x.wellFormed = true := by
  induction xs with
  | nil => simp [wellFormedExprs]
  | cons x xs ih => simp [wellFormedExprs, ih]

theorem wellFormedPairs_iff {τ : Type} {ps : List (Expr τ × Expr τ)} :
    wellFormedPairs ps = true ↔ ∀ e ∈ ps, e.1.wellFormed = true ∧ e.2.wellFormed = true := by
  induction ps with
  | nil => simp [wellFormedPairs]
  | cons e ps ih => simp [wellFormedPairs, ih]

/-- Blocks in a row are well-formed if each is. -/
theorem wellFormedBlock_append {τ : Type} {b c : List (Stmt τ)} :
    wellFormedBlock (b ++ c) = (wellFormedBlock b && wellFormedBlock c) := by
  induction b with
  | nil => simp [wellFormedBlock]
  | cons s b ih => simp [wellFormedBlock, ih, Bool.and_assoc]

/-- All values are those that there are. -/
theorem mem_of_allSome {α : Type} {xs : List (Option α)} {ys : List α} (h : allSome xs = some ys)
    {y : α} (hy : y ∈ ys) : some y ∈ xs := by
  induction xs generalizing ys with
  | nil =>
    cases h
    cases hy
  | cons x xs ih =>
    unfold allSome at h
    split at h
    · next a as _ has =>
      cases h
      rcases List.mem_cons.mp hy with rfl | hy
      · exact List.mem_cons_self
      · exact List.mem_cons_of_mem _ (ih has hy)
    · cases h

/-- A pair is there only if both of its parts are. -/
theorem both_eq_some {α β : Type} {a : Option α} {b : Option β} {e : α × β}
    (h : both a b = some e) : a = some e.1 ∧ b = some e.2 := by
  unfold both at h
  split at h <;> cases h
  exact ⟨rfl, rfl⟩

namespace Production

open Cursor

/-- What a bounded production gives has a property, and it leaves legible tokens. -/
def Builds {α : Type} (P : α → Prop) (m : Option (α × Cursor)) : Prop :=
  ∀ a q, m = some (a, q) → P a ∧ q.Legible

namespace Builds

variable {α β : Type} {P : α → Prop} {Q : β → Prop} {p : Cursor}

theorem of_some {a : α} (ha : P a) (hp : p.Legible) : Builds P (some (a, p)) := by
  intro b q h
  cases h
  exact ⟨ha, hp⟩

theorem of_none : Builds P (none : Option (α × Cursor)) := by
  intro a q h
  cases h

/-- Productions in a row: the second may use what the first builds. -/
theorem bind {m : Option (α × Cursor)} {f : α × Cursor → Option (β × Cursor)} (hm : Builds P m)
    (hf : ∀ a q, P a → q.Legible → Builds Q (f (a, q))) : Builds Q (m >>= f) := by
  intro b r h
  obtain ⟨⟨a, q⟩, hq, hr⟩ := Option.bind_eq_some_iff.mp h
  obtain ⟨ha, hlegible⟩ := hm a q hq
  exact hf a q ha hlegible b r hr

/-- What happens after a wanted token, if there is nothing without it. -/
theorem expect {Q : Option β → Prop} {k : TokenKind} {yes : Cursor → Option (Option β × Cursor)}
    (hp : p.Legible) (hnone : Q none) (hyes : p.advance.Legible → Builds Q (yes p.advance)) :
    Builds Q (match p.expect k with
      | (false, q) => some (none, q)
      | (true, q) => yes q) := by
  rcases p.expect_cases k with ⟨_, h⟩ | ⟨_, h⟩
  · rw [h]
    exact hyes hp.advance
  · rw [h]
    exact .of_some hnone (hp.record _)

end Builds

/-! ## Parameters -/

/-- The names that were read, if they were, are names. -/
def AreNames (r : Option (List String)) : Prop := ∀ ns ∈ r, ns.all isName = true

theorem AreNames.none : AreNames none := by
  intro ns h
  cases h

/-- Names are the literals of words, which are legible. -/
theorem names_builds : ∀ (n : Nat) (p : Cursor), p.Legible → Builds AreNames (names n p) := by
  intro n
  induction n with
  | zero => exact fun p _ => .of_none
  | succ n ih =>
    intro p hp
    rw [names]
    split
    · next hident =>
      have hname := hp.current.name hident
      split
      · refine (ih _ hp.advance.advance).bind fun rest q hrest hq => .of_some ?_ hq
        intro ns hns
        obtain ⟨ms, rfl, rfl⟩ := Option.map_eq_some_iff.mp hns
        simp [hname, hrest ms rfl]
      · refine .of_some ?_ hp
        rintro ns ⟨⟩
        simp [hname]
    · exact .of_some .none (hp.record _)

theorem parameters_builds {n : Nat} {p : Cursor} (hp : p.Legible) :
    Builds AreNames (parameters n p) := by
  rw [parameters]
  split
  · refine .of_some ?_ hp.advance
    rintro ns ⟨⟩
    rfl
  · refine (names_builds n _ hp.advance).bind fun params q hparams hq => ?_
    cases params with
    | none => exact .of_some .none hq
    | some params => exact .expect hq .none fun h => .of_some hparams h

/-! ## Expressions and statements -/

/-- The tree that was built, if one was, is well formed. -/
def IsWellFormed (r : Option (Expr Unit)) : Prop := ∀ x ∈ r, x.wellFormed = true

theorem IsWellFormed.none : IsWellFormed none := by
  intro x h
  cases h

theorem IsWellFormed.some {x : Expr Unit} (h : x.wellFormed = true) : IsWellFormed (some x) := by
  rintro y ⟨⟩
  exact h

/-- A tree made of one that is well formed. -/
theorem IsWellFormed.map {r : Option (Expr Unit)} {f : Expr Unit → Expr Unit} (h : IsWellFormed r)
    (hf : ∀ x, x.wellFormed = true → (f x).wellFormed = true) : IsWellFormed (r.map f) := by
  intro y hy
  obtain ⟨x, hx, rfl⟩ := Option.map_eq_some_iff.mp hy
  exact hf x (h x hx)

/-- Every production that may go `n` calls deep builds well-formed trees of legible tokens. -/
structure AllBuild (n : Nat) : Prop where
  expression : ∀ min p, p.Legible → Builds IsWellFormed (expression n min p)
  operand : ∀ lead p, p.Legible → p.current.kind.lead? = some lead →
    Builds IsWellFormed (operand n lead p)
  operators : ∀ min left p, IsWellFormed left → p.Legible →
    Builds IsWellFormed (operators n min left p)
  extend : ∀ follow left p, IsWellFormed left → p.Legible →
    Builds IsWellFormed (extend n follow left p)
  elements : ∀ close p, p.Legible →
    Builds (fun r => ∀ xs ∈ r, wellFormedExprs xs = true) (elements n close p)
  moreElements : ∀ p, p.Legible → Builds (fun rs => ∀ r ∈ rs, IsWellFormed r) (moreElements n p)
  pairs : ∀ p, p.Legible → Builds (fun r => ∀ ps ∈ r, ∀ e, some e ∈ ps →
    e.1.wellFormed = true ∧ e.2.wellFormed = true) (pairs n p)
  conditional : ∀ p, p.Legible → Builds IsWellFormed (conditional n p)
  function : ∀ p, p.Legible → Builds IsWellFormed (function n p)
  statements : ∀ inBlock p, p.Legible →
    Builds (fun b => wellFormedBlock b = true) (statements n inBlock p)
  statement : ∀ p, p.Legible → Builds (fun r => ∀ s ∈ r, s.wellFormed = true) (statement n p)

namespace AllBuild

variable {n : Nat}

theorem expression_succ (ih : AllBuild n) (min : Precedence) (p : Cursor) (hp : p.Legible) :
    Builds IsWellFormed (Production.expression (n + 1) min p) := by
  rw [Production.expression]
  split
  · exact .of_some .none (hp.record _)
  · next lead hlead =>
    exact (ih.operand lead p hp hlead).bind fun left q hleft hq => ih.operators min left q hleft hq

/-- An operand is built from the literal of its token or from what stands between its delimiters. -/
theorem operand_succ (ih : AllBuild n) (lead : Lead) (p : Cursor) (hp : p.Legible)
    (hlead : p.current.kind.lead? = some lead) :
    Builds IsWellFormed (Production.operand (n + 1) lead p) := by
  have hkind := kind_of_lead? hlead
  cases lead <;> rw [Production.operand]
  case name => exact .of_some (.some (hp.current.name hkind)) hp
  case integer =>
    split
    · next k hk =>
      have hvalue := readInteger?_eq_some_iff.mp hk
      have hpos : 0 ≤ k.toInt := by omega
      exact .of_some (.some (by simpa [Expr.wellFormed] using hpos)) hp
    · exact .of_some .none (hp.record _)
  case text => exact .of_some (.some (hp.current.text hkind)) hp
  case truth b => exact .of_some (.some rfl) hp
  case unary op =>
    exact (ih.expression _ _ hp.advance).bind fun x q hx hq =>
      .of_some (hx.map fun y hy => by simpa [Expr.wellFormed] using hy) hq
  case group =>
    exact (ih.expression _ _ hp.advance).bind fun x q hx hq =>
      .expect hq .none fun h => .of_some hx h
  case array =>
    refine (ih.elements _ p hp).bind fun xs q hxs hq => .of_some ?_ hq
    intro x hx
    obtain ⟨ys, hys, rfl⟩ := Option.map_eq_some_iff.mp hx
    exact hxs ys hys
  case hash =>
    refine (ih.pairs p hp).bind fun ps q hps hq => .of_some ?_ hq
    intro x hx
    obtain ⟨es, hes, rfl⟩ := Option.map_eq_some_iff.mp hx
    obtain ⟨rs, hrs, hall⟩ := Option.bind_eq_some_iff.mp hes
    exact wellFormedPairs_iff.mpr fun e he => hps rs hrs e (mem_of_allSome hall he)
  case conditional => exact ih.conditional p hp
  case function => exact ih.function p hp

theorem operators_succ (ih : AllBuild n) (min : Precedence) (left : Option (Expr Unit))
    (p : Cursor) (hleft : IsWellFormed left) (hp : p.Legible) :
    Builds IsWellFormed (Production.operators (n + 1) min left p) := by
  rw [Production.operators]
  split
  · split
    · exact .of_some hleft hp
    · exact (ih.extend _ left _ hleft hp.advance).bind fun left q hleft hq =>
        ih.operators min left q hleft hq
  · exact .of_some hleft hp

/-- A tree made of two parts. -/
theorem wellFormed_both {α : Type} {left : Option (Expr Unit)} {right : Option α}
    {f : Expr Unit × α → Expr Unit} {P : α → Prop} (hleft : IsWellFormed left)
    (hright : ∀ a ∈ right, P a)
    (hf : ∀ x a, x.wellFormed = true → P a → (f (x, a)).wellFormed = true) :
    IsWellFormed ((both left right).map f) := by
  intro y hy
  obtain ⟨⟨x, a⟩, he, rfl⟩ := Option.map_eq_some_iff.mp hy
  obtain ⟨hx, ha⟩ := both_eq_some he
  exact hf x a (hleft x hx) (hright a ha)

/-- What goes on with an operand wraps it, so the whole is well-formed if the operand is. -/
theorem extend_succ (ih : AllBuild n) (follow : Follow) (left : Option (Expr Unit)) (p : Cursor)
    (hleft : IsWellFormed left) (hp : p.Legible) :
    Builds IsWellFormed (Production.extend (n + 1) follow left p) := by
  cases follow <;> rw [Production.extend]
  case operation op =>
    exact (ih.expression _ _ hp.advance).bind fun right q hright hq =>
      .of_some (wellFormed_both hleft hright fun x y hx hy => by simp [Expr.wellFormed, hx, hy]) hq
  case call =>
    exact (ih.elements _ p hp).bind fun args q hargs hq =>
      .of_some (wellFormed_both hleft hargs fun x ys hx hys => by simp [Expr.wellFormed, hx, hys]) hq
  case index =>
    refine (ih.expression _ _ hp.advance).bind fun key q hkey hq => .expect hq .none fun h => ?_
    exact .of_some (wellFormed_both hleft hkey fun x y hx hy => by simp [Expr.wellFormed, hx, hy]) h

theorem elements_succ (ih : AllBuild n) (close : TokenKind) (p : Cursor) (hp : p.Legible) :
    Builds (fun r => ∀ xs ∈ r, wellFormedExprs xs = true)
      (Production.elements (n + 1) close p) := by
  rw [Production.elements]
  split
  · refine .of_some ?_ hp.advance
    rintro xs ⟨⟩
    rfl
  · refine (ih.expression _ _ hp.advance).bind fun first q hfirst hq => ?_
    refine (ih.moreElements q hq).bind fun rest r hrest hr => ?_
    refine .expect hr (by simp) fun h => .of_some ?_ h
    intro xs hxs
    refine wellFormedExprs_iff.mpr fun x hx => ?_
    rcases List.mem_cons.mp (mem_of_allSome hxs hx) with heq | hmem
    · exact hfirst x heq.symm
    · exact hrest _ hmem x rfl

theorem moreElements_succ (ih : AllBuild n) (p : Cursor) (hp : p.Legible) :
    Builds (fun rs => ∀ r ∈ rs, IsWellFormed r) (Production.moreElements (n + 1) p) := by
  rw [Production.moreElements]
  split
  · refine (ih.expression _ _ hp.advance.advance).bind fun x q hx hq => ?_
    exact (ih.moreElements q hq).bind fun rest r hrest hr =>
      .of_some (List.forall_mem_cons.mpr ⟨hx, hrest⟩) hr
  · exact .of_some (by simp) hp

/-- Both parts of every pair are well-formed, whether or not the other is there. -/
theorem pairs_succ (ih : AllBuild n) (p : Cursor) (hp : p.Legible) :
    Builds (fun r => ∀ ps ∈ r, ∀ e, some e ∈ ps → e.1.wellFormed = true ∧ e.2.wellFormed = true)
      (Production.pairs (n + 1) p) := by
  rw [Production.pairs]
  split
  · refine .of_some ?_ hp.advance
    rintro ps ⟨⟩ e he
    cases he
  · refine (ih.expression _ _ hp.advance).bind fun key q hkey hq => ?_
    refine .expect hq (by simp) fun hq => ?_
    refine (ih.expression _ _ hq.advance).bind fun value r hvalue hr => ?_
    have hpair : ∀ e, both key value = some e →
        e.1.wellFormed = true ∧ e.2.wellFormed = true := by
      intro e he
      obtain ⟨hk, hv⟩ := both_eq_some he
      exact ⟨hkey _ hk, hvalue _ hv⟩
    dsimp only
    split
    · refine .of_some ?_ hr.advance
      rintro ps ⟨⟩ e he
      exact hpair e (List.mem_singleton.mp he).symm
    · refine .expect hr (by simp) fun hs => ?_
      refine (ih.pairs _ hs).bind fun rest u hrest hu => .of_some ?_ hu
      intro ps hps e he
      obtain ⟨qs, hqs, rfl⟩ := Option.map_eq_some_iff.mp hps
      rcases List.mem_cons.mp he with heq | hmem
      · exact hpair e heq.symm
      · exact hrest qs hqs e hmem

theorem conditional_succ (ih : AllBuild n) (p : Cursor) (hp : p.Legible) :
    Builds IsWellFormed (Production.conditional (n + 1) p) := by
  rw [Production.conditional]
  refine (ih.expression _ _ hp.advance).bind fun test q htest hq => .expect hq .none fun hq => ?_
  refine (ih.statements _ _ hq.advance).bind fun yes r hyes hr => ?_
  dsimp only
  split
  · refine .expect hr.advance .none fun hs => ?_
    refine (ih.statements _ _ hs.advance).bind fun no u hno hu => .of_some ?_ hu
    exact htest.map fun x hx => by simp [Expr.wellFormed, hx, hyes, hno]
  · exact .of_some (htest.map fun x hx => by simp [Expr.wellFormed, hx, hyes]) hr

theorem function_succ (ih : AllBuild n) (p : Cursor) (hp : p.Legible) :
    Builds IsWellFormed (Production.function (n + 1) p) := by
  rw [Production.function]
  refine .expect hp .none fun hp => ?_
  refine (parameters_builds hp).bind fun params q hparams hq => ?_
  cases params with
  | none => exact .of_some .none hq
  | some params =>
    refine .expect hq .none fun hq => ?_
    refine (ih.statements _ _ hq.advance).bind fun body r hbody hr => .of_some (.some ?_) hr
    simp [Expr.wellFormed, hparams params rfl, hbody]

/-- Statements that do not parse are left out, and the others are well-formed. -/
theorem statements_succ (ih : AllBuild n) (inBlock : Bool) (p : Cursor) (hp : p.Legible) :
    Builds (fun b => wellFormedBlock b = true) (Production.statements (n + 1) inBlock p) := by
  rw [Production.statements]
  split
  · exact .of_some rfl hp
  · refine (ih.statement p hp).bind fun s q hs hq => ?_
    refine (ih.statements _ _ hq.advance).bind fun rest r hrest hr => .of_some ?_ hr
    rw [wellFormedBlock_append, hrest, Bool.and_true]
    cases s with
    | none => rfl
    | some s => simp [wellFormedBlock, hs s rfl]

theorem statement_succ (ih : AllBuild n) (p : Cursor) (hp : p.Legible) :
    Builds (fun r => ∀ s ∈ r, s.wellFormed = true) (Production.statement (n + 1) p) := by
  -- a statement made of an expression
  have hmap : ∀ {x : Option (Expr Unit)} {f : Expr Unit → Stmt Unit}, IsWellFormed x →
      (∀ y, y.wellFormed = true → (f y).wellFormed = true) →
      ∀ s ∈ x.map f, s.wellFormed = true := by
    intro x f hx hf s hs
    obtain ⟨y, hy, rfl⟩ := Option.map_eq_some_iff.mp hs
    exact hf y (hx y hy)
  rw [Production.statement]
  split
  · rcases p.expect_cases .ident with ⟨hident, h⟩ | ⟨_, h⟩
    · rw [h]
      refine .expect hp.advance (by simp) fun hq => ?_
      refine (ih.expression _ _ hq.advance).bind fun x r hx hr => .of_some ?_ hr.skipTerminator
      have hname := hp.advance.current.name hident
      exact hmap hx fun y hy => by simp [Stmt.wellFormed, hname, hy]
    · rw [h]
      exact .of_some (by simp) (hp.record _)
  · exact (ih.expression _ _ hp.advance).bind fun x q hx hq =>
      .of_some (hmap hx fun y hy => hy) hq.skipTerminator
  · exact (ih.expression _ _ hp).bind fun x q hx hq =>
      .of_some (hmap hx fun y hy => hy) hq.skipTerminator

end AllBuild

/-- **Productions build well-formed trees**, with or without reports. -/
theorem builds (n : Nat) : AllBuild n := by
  induction n with
  | zero => constructor <;> intros <;> exact .of_none
  | succ n ih =>
    exact {
      expression := ih.expression_succ
      operand := ih.operand_succ
      operators := ih.operators_succ
      extend := ih.extend_succ
      elements := ih.elements_succ
      moreElements := ih.moreElements_succ
      pairs := ih.pairs_succ
      conditional := ih.conditional_succ
      function := ih.function_succ
      statements := ih.statements_succ
      statement := ih.statement_succ }

end Production

/-- **The program of every source is well formed**, whatever the source holds. -/
theorem wellFormed_program (source : String) : wellFormedBlock (parse source).program = true := by
  have hlegible : (Cursor.ofSource source).Legible := fun t ht => Scanner.legible_of_mem ht
  have hprogram := (Cursor.ofSource source).program_eq
  exact ((Production.builds _).statements false _ hlegible _ _ hprogram).1

end ClosureLang
