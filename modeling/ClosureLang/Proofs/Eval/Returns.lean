import ClosureLang.Proofs.Eval.Frame

/-!
# Returns, and one program after another

A return comes from a return statement of the code that is run: a call takes the returns of the body
that it runs, so code without a return statement outside function literals ends with a value or an
error (`Eval.NoReturn`).

A program without such a statement runs to its end or fails. So what it does before another program
is what it does alone, and the other program goes on from there (`Program.run_append`).
-/

namespace ClosureLang

variable {τ α β : Type}

/-! ## Return statements in a tree -/

mutual

/-- Whether an expression has a return statement outside function literals. -/
def Expr.returns : Expr τ → Bool
  | .name _ => false
  | .int _ => false
  | .text _ => false
  | .bool _ => false
  | .array items => exprsReturn items
  | .hash pairs => pairsReturn pairs
  | .unary _ x => x.returns
  | .binary _ x y => x.returns || y.returns
  | .cond c yes none => c.returns || blockReturns yes
  | .cond c yes (some no) => c.returns || (blockReturns yes || blockReturns no)
  | .fn _ _ _ => false
  | .call f args => f.returns || exprsReturn args
  | .index x i => x.returns || i.returns

/-- Whether some expressions have a return statement outside function literals. -/
def exprsReturn : List (Expr τ) → Bool
  | [] => false
  | x :: xs => x.returns || exprsReturn xs

/-- Whether the pairs of a hash literal have a return statement outside function literals. -/
def pairsReturn : List (Expr τ × Expr τ) → Bool
  | [] => false
  | (k, v) :: ps => k.returns || (v.returns || pairsReturn ps)

/-- Whether a block or a program has a return statement outside function literals. -/
def blockReturns : List (Stmt τ) → Bool
  | [] => false
  | s :: b => s.returns || blockReturns b

/-- Whether a statement is a return statement or has one outside function literals. -/
def Stmt.returns : Stmt τ → Bool
  | .bind _ x => x.returns
  | .ret _ => true
  | .expr x => x.returns

end

/-! ## Evaluations that do not return -/

/-- Wherever an evaluation ends, it ends with a result or an error. -/
def Eval.NoReturn (m : Eval τ α) : Prop :=
  ∀ ⦃s r t⦄, m s = some (r, t) → ∀ v, r ≠ .error (.returned v)

namespace Eval.NoReturn

variable {m : Eval τ α}

theorem pure (a : α) : (Pure.pure a : Eval τ α).NoReturn := by
  rintro s r t h v rfl
  cases h

/-- Steps in a row end in no return if neither does. -/
theorem bind {f : α → Eval τ β} (hm : m.NoReturn) (hf : ∀ a, (f a).NoReturn) :
    (m >>= f).NoReturn := by
  rintro s r t h v rfl
  rcases bind_cases h with ⟨a, u, -, hfu⟩ | ⟨x, hms, hx⟩
  · exact hf a hfu v rfl
  · cases hx
    exact hm hms v rfl

/-- A failure is no return. -/
theorem failed (e : EvalError) : (Eval.exit (.failed e) : Eval τ α).NoReturn := by
  rintro s r t h v rfl
  cases h

theorem tooDeep : (Eval.tooDeep : Eval τ α).NoReturn := by
  intro s r t h
  cases h

theorem lift (e : Except EvalError α) : (Eval.lift e : Eval τ α).NoReturn := by
  rintro s r t h v rfl
  cases e <;> cases h

/-- An unbound name fails; it does not return. -/
theorem name (scope : ScopeId) (n : String) : (Eval.name scope n : Eval τ (Value τ)).NoReturn := by
  rintro s r t h v rfl
  unfold Eval.name at h
  split at h
  · cases h
  · split at h <;> cases h

theorem record (c : CallEvent) : (Eval.record c : Eval τ Unit).NoReturn := by
  rintro s r t h v rfl
  cases h

theorem define (scope : ScopeId) (n : String) (v : Value τ) :
    (Eval.define scope n v).NoReturn := by
  rintro s r t h v rfl
  cases h

/-- What ends without a return gives a value or fails. -/
theorem ok_or_failed (h : m.NoReturn) {s t : Machine τ} {r : Except (Exit τ) α}
    (hends : m s = some (r, t)) : (∃ a, r = .ok a) ∨ ∃ e, r = .error (.failed e) := by
  rcases r with (v | e) | a
  · exact absurd rfl (h hends v)
  · exact Or.inr ⟨e, rfl⟩
  · exact Or.inl ⟨a, rfl⟩

end Eval.NoReturn

/-! ### Trees -/

section Trees

variable {call : Caller τ} {scope : ScopeId}

mutual

/-- **An expression without a return statement does not return**, if calls do not. -/
theorem Expr.eval_noReturn (hcall : ∀ f args, (call f args).NoReturn) :
    ∀ x : Expr τ, x.returns = false → (x.eval call scope).NoReturn
  | .name n, _ => .name scope n
  | .int _, _ => .pure _
  | .text _, _ => .pure _
  | .bool _, _ => .pure _
  | .array items, h => (evalExprs_noReturn hcall items h).bind fun _ => .pure _
  | .hash pairs, h => (evalPairs_noReturn hcall pairs [] h).bind fun _ => .pure _
  | .unary _ x, h => (x.eval_noReturn hcall h).bind fun _ => .lift _
  | .binary _ x y, h => by
    rw [Expr.returns, Bool.or_eq_false_iff] at h
    exact (x.eval_noReturn hcall h.1).bind fun _ =>
      (y.eval_noReturn hcall h.2).bind fun _ => .lift _
  | .cond c yes none, h => by
    rw [Expr.returns, Bool.or_eq_false_iff] at h
    refine (c.eval_noReturn hcall h.1).bind fun v => ?_
    split
    · exact evalBlock_noReturn hcall yes .null h.2
    · exact .pure _
  | .cond c yes (some no), h => by
    rw [Expr.returns, Bool.or_eq_false_iff, Bool.or_eq_false_iff] at h
    refine (c.eval_noReturn hcall h.1).bind fun v => ?_
    split
    · exact evalBlock_noReturn hcall yes .null h.2.1
    · exact evalBlock_noReturn hcall no .null h.2.2
  | .fn _ _ _, _ => .pure _
  | .call f args, h => by
    rw [Expr.returns, Bool.or_eq_false_iff] at h
    exact (f.eval_noReturn hcall h.1).bind fun v =>
      (evalExprs_noReturn hcall args h.2).bind fun vs => hcall v vs
  | .index x i, h => by
    rw [Expr.returns, Bool.or_eq_false_iff] at h
    exact (x.eval_noReturn hcall h.1).bind fun _ =>
      (i.eval_noReturn hcall h.2).bind fun _ => .lift _

theorem evalExprs_noReturn (hcall : ∀ f args, (call f args).NoReturn) :
    ∀ xs : List (Expr τ), exprsReturn xs = false → (evalExprs call scope xs).NoReturn
  | [], _ => .pure _
  | x :: xs, h => by
    rw [exprsReturn, Bool.or_eq_false_iff] at h
    exact (x.eval_noReturn hcall h.1).bind fun _ =>
      (evalExprs_noReturn hcall xs h.2).bind fun _ => .pure _

theorem evalPairs_noReturn (hcall : ∀ f args, (call f args).NoReturn) :
    ∀ (ps : List (Expr τ × Expr τ)) (stored : List (Key × Stored τ)), pairsReturn ps = false →
      (evalPairs call scope stored ps).NoReturn
  | [], _, _ => .pure _
  | (x, y) :: ps, _, h => by
    rw [pairsReturn, Bool.or_eq_false_iff, Bool.or_eq_false_iff] at h
    exact (x.eval_noReturn hcall h.1).bind fun _ => (Eval.NoReturn.lift _).bind fun _ =>
      (y.eval_noReturn hcall h.2.1).bind fun _ => evalPairs_noReturn hcall ps _ h.2.2

/-- A block with no return in it goes through all its statements, or one of them fails. -/
theorem evalBlock_noReturn (hcall : ∀ f args, (call f args).NoReturn) :
    ∀ (b : List (Stmt τ)) (last : Value τ), blockReturns b = false →
      (evalBlock call scope last b).NoReturn
  | [], _, _ => .pure _
  | s :: b, _, h => by
    rw [blockReturns, Bool.or_eq_false_iff] at h
    exact (s.eval_noReturn hcall h.1).bind fun v => evalBlock_noReturn hcall b v h.2

theorem Stmt.eval_noReturn (hcall : ∀ f args, (call f args).NoReturn) :
    ∀ s : Stmt τ, s.returns = false → (s.eval call scope).NoReturn
  | .bind n x, h => (x.eval_noReturn hcall h).bind fun v =>
    (Eval.NoReturn.define scope n v).bind fun _ => .pure _
  | .ret _, h => Bool.noConfusion h
  | .expr x, h => x.eval_noReturn hcall h

end

end Trees

/-! ### Calls -/

/-- Whatever the body of a closure does, the call does not return from the code that made it. -/
theorem Closure.enter_noReturn (call : Caller τ) (f : Closure τ) (args : List (Value τ)) :
    (f.enter call args).NoReturn := by
  rintro s r t h v rfl
  rw [enter_eq] at h
  obtain ⟨⟨r, u⟩, -, hend⟩ := Option.map_eq_some_iff.mp h
  rcases r with (w | e) | w <;> cases hend

/-- A call gives a value or fails, whatever function is called, if entering a closure does. -/
theorem applyWith_noReturn {enter : Closure τ → List (Value τ) → Eval τ (Value τ)}
    (henter : ∀ f args, (enter f args).NoReturn) (f : Value τ) (args : List (Value τ)) :
    (applyWith enter f args).NoReturn := by
  unfold applyWith
  split
  · split
    · exact henter _ args
    · exact .failed _
  · exact (Eval.NoReturn.record _).bind fun _ => .lift _
  · exact .failed _

/-- **A call does not return from the code that made it**, however many returns the code that it
runs has. -/
theorem apply_noReturn (depth : Nat) (f : Value τ) (args : List (Value τ)) :
    (apply depth f args).NoReturn := by
  cases depth with
  | zero => exact applyWith_noReturn (fun _ _ => .tooDeep) f args
  | succ depth => exact applyWith_noReturn (fun g vs => g.enter_noReturn (apply depth) vs) f args

/-- **A return comes only from a return statement of the code that is run.** An expression, a
statement or a block without one outside function literals ends with a value or an error, if it
ends, whatever the store holds and whatever the functions do that it calls. -/
theorem eval_without_return_statement (depth : Nat) (scope : ScopeId) (s t : Machine τ)
    (r : Except (Exit τ) (Value τ)) :
    (∀ x : Expr τ, x.returns = false → x.eval (apply depth) scope s = some (r, t) →
      (∃ v, r = .ok v) ∨ ∃ e, r = .error (.failed e)) ∧
    (∀ x : Stmt τ, x.returns = false → x.eval (apply depth) scope s = some (r, t) →
      (∃ v, r = .ok v) ∨ ∃ e, r = .error (.failed e)) ∧
    ∀ (b : Block τ) (last : Value τ), blockReturns b = false →
      evalBlock (apply depth) scope last b s = some (r, t) →
      (∃ v, r = .ok v) ∨ ∃ e, r = .error (.failed e) := by
  refine ⟨fun x hx h => ?_, fun x hx h => ?_, fun b last hb h => ?_⟩
  · exact (x.eval_noReturn (apply_noReturn depth) hx).ok_or_failed h
  · exact (x.eval_noReturn (apply_noReturn depth) hx).ok_or_failed h
  · exact (evalBlock_noReturn (apply_noReturn depth) b last hb).ok_or_failed h

/-- Returns from a branch of a conditional, or else from its own block. -/
def earlyReturner : Closure Unit where
  params := ["n"]
  body := [.expr (.cond (.name "n") [.ret (.array [.name "n"])] none), .ret (.int 0)]
  tag := ()
  scope := 0

/-- A scope in which the name `early` is bound to this function. -/
def earlyMachine : Machine Unit where
  store := (Store.empty.add none).2.define 0 "early" (.closure earlyReturner)

/-- A call whose argument is a conditional with calls in its condition and its branch. -/
def earlyCall : Expr Unit :=
  .call (.name "early")
    [.cond (.call (.name "early") [.int 1]) [.expr (.call (.name "early") [.bool false])] none]

theorem eval_without_return_statement_early : ∃ r t r' t',
    earlyCall.eval (apply 1) 0 earlyMachine = some (r, t) ∧
      ((∃ v, r = .ok v) ∨ ∃ e, r = .error (.failed e)) ∧
      evalBlock (apply 1) 0 .null [.bind "x" earlyCall, .expr (.unary .negate (.name "x"))]
        earlyMachine = some (r', t') ∧
      ((∃ v, r' = .ok v) ∨ ∃ e, r' = .error (.failed e)) := by
  have hcall : (earlyCall.eval (apply 1) 0 earlyMachine).isSome = true := by decide +kernel
  have hblock : (evalBlock (apply 1) 0 .null
      [.bind "x" earlyCall, .expr (.unary .negate (.name "x"))] earlyMachine).isSome = true := by
    decide +kernel
  obtain ⟨⟨r, t⟩, hr⟩ := Option.isSome_iff_exists.mp hcall
  obtain ⟨⟨r', t'⟩, hr'⟩ := Option.isSome_iff_exists.mp hblock
  exact ⟨r, t, r', t', hr, (eval_without_return_statement 1 0 earlyMachine t r).1 _ rfl hr, hr',
    (eval_without_return_statement 1 0 earlyMachine t' r').2.2 _ _ rfl hr'⟩

/-! ## One program after another -/

theorem Eval.bind_assoc {γ : Type} (m : Eval τ α) (f : α → Eval τ β) (g : β → Eval τ γ) :
    m >>= f >>= g = m >>= fun a => f a >>= g := by
  funext s
  show andThen (andThen m f) g s = andThen m (fun a => andThen (f a) g) s
  unfold andThen
  rcases m s with - | ⟨a | a, t⟩ <;> rfl

/-- A block is run by running its beginning and then, with the value so far, the rest. -/
theorem evalBlock_append (call : Caller τ) (scope : ScopeId) (b c : List (Stmt τ))
    (last : Value τ) :
    evalBlock call scope last (b ++ c) =
      evalBlock call scope last b >>= fun v => evalBlock call scope v c := by
  induction b generalizing last with
  | nil => rfl
  | cons s b ih =>
    show (s.eval call scope >>= fun v => evalBlock call scope v (b ++ c)) =
      (s.eval call scope >>= fun v => evalBlock call scope v b) >>=
        fun v => evalBlock call scope v c
    rw [Eval.bind_assoc]
    exact congrArg (s.eval call scope >>= ·) (funext ih)

/-- **A program without return statements and what follows it are run one after the other.** The
second program must have a statement, since without one the value is that of the first. -/
theorem Program.run_append {p q : Program τ} (hp : blockReturns p = false) (hq : q ≠ [])
    (depth : Nat) (scope : ScopeId) (s : Machine τ) :
    Program.run depth (p ++ q) scope s =
      match p.run depth scope s with
      | none => none
      | some (.ok _, t) => q.run depth scope t
      | some (.error e, t) => some (.error e, t) := by
  obtain ⟨stmt, q, rfl⟩ := List.exists_cons_of_ne_nil hq
  have hnone : (evalBlock (apply depth) scope .null p).NoReturn :=
    evalBlock_noReturn (apply_noReturn depth) p .null hp
  rw [Program.run_eq, Program.run_eq, Eval.run, Eval.run, evalBlock_append]
  show Option.map _ (Eval.andThen _ _ s) = _
  unfold Eval.andThen
  cases hrun : evalBlock (apply depth) scope .null p s with
  | none => rfl
  | some x =>
    obtain ⟨(v | e) | v, t⟩ := x
    · exact absurd rfl (hnone hrun v)
    · rfl
    · exact (Program.run_eq depth (stmt :: q) scope t).symm

end ClosureLang
