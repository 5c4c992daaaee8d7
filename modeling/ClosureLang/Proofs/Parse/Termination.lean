import Mathlib.Data.List.Chain
import ClosureLang.Proofs.Parse.Recursion

/-!
# Parsing ends

Every call of a production comes to its end, wherever it starts: no call makes calls without end
(`wellFounded_calls`). On a source fewer calls are open at a time than eight for each of its tokens,
and the last token that is reached is its end.

A loop is a production that calls itself where it goes round once more (`Call.loop?`). Advancing at
the end of a source changes nothing, so that a loop comes to an end is not a matter of how often the
cursor is moved: each time round there is one token less (`Calls.left_lt`).
-/

namespace ClosureLang

open Production

theorem Cursor.Moves.left_le {p q : Cursor} (h : p.Moves q) : q.left ≤ p.left :=
  h.tokens.length_le

/-! ## Loops -/

/-- The loops of the parser. -/
inductive Loop where
  | program | block | operators | elements | pairs | parameters
  deriving DecidableEq

/-- The loop of which a call is one time round. -/
def Call.loop? : Call → Option Loop
  | .statements false _ => some .program
  | .statements true _ => some .block
  | .operators .. => some .operators
  | .moreElements _ => some .elements
  | .pairs _ => some .pairs
  | .names _ => some .parameters
  | _ => none

/-- **Each time round a loop there is one token less.** -/
theorem Calls.left_lt {c c' : Call} {l : Loop} (h : Calls c c') (hc : c.loop? = some l)
    (hc' : c'.loop? = some l) : c'.cursor.left < c.cursor.left := by
  cases h with
  | @nextName p _ hcomma =>
    have hp := Cursor.one_lt_left_of_peek (p := p) (by rw [hcomma]; decide)
    simp only [Call.cursor, Cursor.left_advance]
    omega
  | @nextOperator min left p follow m left' q hmin hfollow hextend =>
    have hp : 1 < p.left := Cursor.one_lt_left_of_peek (by
      intro he
      rw [he] at hfollow
      cases hfollow)
    have hq := ((Production.moves _).extend _ _ _ _ _ hextend).left_le
    simp only [Call.cursor, Cursor.left_advance] at hq ⊢
    omega
  | @nextElement p m x q hcomma hx =>
    have hp := Cursor.one_lt_left_of_peek (p := p) (by rw [hcomma]; decide)
    have hq := ((Production.moves _).expression _ _ _ _ hx).left_le
    simp only [Call.cursor, Cursor.left_advance] at hq ⊢
    omega
  | @nextPair p m key q m' value r hclose hkey hcolon hvalue hcomma =>
    have hr := Cursor.one_lt_left_of_peek (p := r) (by rw [hcomma]; decide)
    have hkey := ((Production.moves _).expression _ _ _ _ hkey).left_le
    have hvalue := ((Production.moves _).expression _ _ _ _ hvalue).left_le
    simp only [Call.cursor, Cursor.left_advance] at hkey hvalue ⊢
    omega
  | @nextStatement inBlock p m s q hgoes hs =>
    have hp : 0 < p.left := Cursor.left_pos_of_current fun he => hgoes (Or.inl he)
    have hq := ((Production.moves _).statement _ _ _ hs).left_le
    simp only [Call.cursor, Cursor.left_advance]
    omega
  | _ => simp [Call.loop?] at hc hc'

/-! ## Calls within calls -/

/-- As many calls as a call may have open at a time are enough for each chain of calls from it. -/
theorem Call.length_le_of_run {c : Call} {n : Nat} (hrun : (c.run n).isSome) {stack : List Call}
    (hstack : (c :: stack).IsChain Calls) : (c :: stack).length ≤ n := by
  induction stack generalizing c n with
  | nil =>
    cases n with
    | zero =>
      rw [c.run_zero] at hrun
      cases hrun
    | succ n => exact Nat.succ_le_succ (Nat.zero_le n)
  | cons c' stack ih =>
    rw [List.isChain_cons_cons] at hstack
    cases n with
    | zero =>
      rw [c.run_zero] at hrun
      cases hrun
    | succ n =>
      exact Nat.succ_le_succ (ih (Call.isSome_run_succ_iff.mp hrun c' hstack.1) hstack.2)

/-- A call that has a result does not make calls without end. -/
theorem Call.acc_of_run {c : Call} {n : Nat} (hrun : (c.run n).isSome) :
    Acc (flip Calls) c := by
  induction n generalizing c with
  | zero =>
    rw [c.run_zero] at hrun
    cases hrun
  | succ n ih => exact Acc.intro c fun c' h => ih (Call.isSome_run_succ_iff.mp hrun c' h)

theorem Call.isSome_run_of_ends {α : Type} {m : Option (α × Cursor)} {k n : Nat} {c : Call}
    (hm : Ends m k) (hc : c.run n = m.map Prod.snd) : (c.run n).isSome := by
  rw [hc, Option.isSome_map]
  exact hm.isSome

theorem Call.acc_of_ends {α : Type} {m : Option (α × Cursor)} {k n : Nat} {c : Call}
    (hm : Ends m k) (hc : c.run n = m.map Prod.snd) : Acc (flip Calls) c :=
  Call.acc_of_run (Call.isSome_run_of_ends hm hc)

/-- **No call makes calls without end**, also where a production is called that does not stand on the
token it is for. -/
theorem wellFounded_calls : WellFounded (flip Calls) := by
  have hnames : ∀ p, Acc (flip Calls) (Call.names p) := fun p =>
    Call.acc_of_ends (names_ends (p.left + 1) p (Nat.le_refl _)) rfl
  have hexpr : ∀ min p, Acc (flip Calls) (Call.expression min p) := fun min p =>
    Call.acc_of_ends ((ends _).expression min p (Nat.le_refl _)) rfl
  have hops : ∀ min left p, Acc (flip Calls) (Call.operators min left p) := fun min left p =>
    Call.acc_of_ends ((ends _).operators min left p (Nat.le_refl _)) rfl
  have hmore : ∀ p, Acc (flip Calls) (Call.moreElements p) := fun p =>
    Call.acc_of_ends ((ends _).moreElements p (Nat.le_refl _)) rfl
  have hfn : ∀ p, Acc (flip Calls) (Call.function p) := fun p =>
    Call.acc_of_ends ((ends _).function p (Nat.le_refl _)) rfl
  have hstmts : ∀ inBlock p, Acc (flip Calls) (Call.statements inBlock p) := fun inBlock p =>
    Call.acc_of_ends ((ends _).statements inBlock p (Nat.le_refl _)) rfl
  have hstmt : ∀ p, Acc (flip Calls) (Call.statement p) := fun p =>
    Call.acc_of_ends ((ends _).statement p (Nat.le_refl _)) rfl
  -- The other productions are called on a token; without one they still make only the calls above.
  have helems : ∀ close p, Acc (flip Calls) (Call.elements close p) := by
    intro close p
    refine Acc.intro _ fun c' (h : Calls _ c') => ?_
    cases h with
    | firstElement => exact hexpr _ _
    | moreElements => exact hmore _
  have hpairs : ∀ p, Acc (flip Calls) (Call.pairs p) := by
    intro p
    refine Acc.intro _ fun c' (h : Calls _ c') => ?_
    cases h with
    | pairKey => exact hexpr _ _
    | pairValue => exact hexpr _ _
    | @nextPair _ _ _ _ _ _ r _ _ _ _ hcomma =>
      have hr := Cursor.one_lt_left_of_peek (p := r) (by rw [hcomma]; decide)
      refine Call.acc_of_ends ((ends _).pairs r.advance ?_ (Nat.le_refl _)) rfl
      rw [Cursor.left_advance]
      omega
  have hcond : ∀ p, Acc (flip Calls) (Call.conditional p) := by
    intro p
    refine Acc.intro _ fun c' (h : Calls _ c') => ?_
    cases h with
    | test => exact hexpr _ _
    | yes => exact hstmts _ _
    | no => exact hstmts _ _
  constructor
  intro c
  cases c with
  | names p => exact hnames p
  | expression min p => exact hexpr min p
  | operand lead p =>
    refine Acc.intro _ fun c' (h : Calls _ c') => ?_
    cases h with
    | unary => exact hexpr _ _
    | group => exact hexpr _ _
    | array => exact helems _ _
    | hash => exact hpairs _
    | conditional => exact hcond _
    | function => exact hfn _
  | operators min left p => exact hops min left p
  | extend follow left p =>
    refine Acc.intro _ fun c' (h : Calls _ c') => ?_
    cases h with
    | right => exact hexpr _ _
    | arguments => exact helems _ _
    | key => exact hexpr _ _
  | elements close p => exact helems close p
  | moreElements p => exact hmore p
  | pairs p => exact hpairs p
  | conditional p => exact hcond p
  | function p => exact hfn p
  | statements inBlock p => exact hstmts inBlock p
  | statement p => exact hstmt p

/-! ## The end of the source -/

theorem Cursor.depth_ofSource (source : String) :
    (Cursor.ofSource source).depth = 8 * (tokenize source).length := by
  rw [Cursor.depth, length_tokenize, Nat.mul_add]

/-- **Parsing ends on every source.** The calls that the productions make are well founded, on a
source fewer than eight calls for each token are open at a time, no call moves the cursor back, and
each time round a loop the cursor has left a token behind. The whole source is read when the end is
the current token.

A call has a result exactly if its own calls have, one call less deep, so `Calls` is all that the
depth depends on. -/
theorem parsing_ends (source : String) :
    (∃ q, (Call.ofSource source).run (8 * (tokenize source).length) = some q ∧
      q.current.kind = .eof ∧ (parse source).reports = q.reports.toList) ∧
    (∀ stack, (Call.ofSource source :: stack).IsChain Calls →
      (Call.ofSource source :: stack).length < 8 * (tokenize source).length) ∧
    WellFounded (flip Calls) ∧
    (∀ c n, (c.run (n + 1)).isSome ↔ ∀ c', Calls c c' → (c'.run n).isSome) ∧
    (∀ c n q, c.run (n + 1) = some q → q.tokens <:+ c.cursor.tokens ∧
      ∀ c', Calls c c' → c'.cursor.tokens <:+ c.cursor.tokens ∧
        ∃ r, c'.run n = some r ∧ q.tokens <:+ r.tokens) ∧
    (∀ c c' l, Calls c c' → c.loop? = some l → c'.loop? = some l →
      c'.cursor.left < c.cursor.left) := by
  refine ⟨⟨(Cursor.ofSource source).program.2, ?_, ?_, rfl⟩, ?_, wellFounded_calls,
    fun c n => Call.isSome_run_succ_iff, ?_, fun c c' l => Calls.left_lt⟩
  · rw [← Cursor.depth_ofSource]
    exact Call.run_ofSource source
  · rcases statements_end (Cursor.ofSource source).program_eq with hend | ⟨hblock, _⟩
    · exact hend
    · cases hblock
  · intro stack hstack
    have hends := (ends _).statements false (Cursor.ofSource source) (Nat.le_refl _)
    have hlength := Call.length_le_of_run (Call.isSome_run_of_ends hends rfl) hstack
    rw [length_tokenize]
    omega
  · intro c n q hrun
    refine ⟨(Call.moves hrun).tokens, fun c' hcalls => ⟨hcalls.moves.tokens, ?_⟩⟩
    obtain ⟨r, hr, hrq⟩ := run_of_calls hcalls hrun
    exact ⟨r, hr, hrq.tokens⟩

end ClosureLang
