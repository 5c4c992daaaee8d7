import ClosureLang.Proofs.Eval.Frame

/-!
# The depth of calls

How deep calls may nest decides whether an evaluation has an outcome, and never which one. An
evaluation that has an outcome has the same one, with the same machine, if calls may nest deeper
(`Eval.Refines`).

A program or a call ends if it does for some depth (`Program.Ends`, `Value.CallEnds`), and it ends
in one way only.
-/

namespace ClosureLang

variable {τ α β : Type}

/-- Wherever the first evaluation has an end, the second one has the same end. -/
def Eval.Refines (e e' : Eval τ α) : Prop := ∀ ⦃s x⦄, e s = some x → e' s = some x

namespace Eval.Refines

theorem refl (e : Eval τ α) : e.Refines e := fun _ _ h => h

theorem trans {e₁ e₂ e₃ : Eval τ α} (h₁₂ : e₁.Refines e₂) (h₂₃ : e₂.Refines e₃) :
    e₁.Refines e₃ :=
  fun _ _ h => h₂₃ (h₁₂ h)

/-- Steps in a row end only where both do. -/
theorem bind {e e' : Eval τ α} {f f' : α → Eval τ β} (he : e.Refines e')
    (hf : ∀ a, (f a).Refines (f' a)) : (e >>= f).Refines (e' >>= f') := by
  rintro s ⟨r, t⟩ h
  rcases bind_cases h with ⟨a, u, hes, hfu⟩ | ⟨x, hes, rfl⟩
  · rw [bind_of_ok (he hes)]
    exact hf a hfu
  · show andThen e' f' s = some (.error x, t)
    unfold andThen
    rw [he hes]

/-- Running out of depth is no result, so anything refines it. -/
theorem tooDeep (e : Eval τ α) : Eval.tooDeep.Refines e := by
  intro s x h
  cases h

end Eval.Refines

/-! ## Trees -/

section Trees

variable {call call' : Caller τ} {scope : ScopeId}

mutual

/-- An expression keeps its end if calls keep theirs. -/
theorem Expr.eval_refines (hcall : ∀ f args, (call f args).Refines (call' f args)) :
    ∀ x : Expr τ, (x.eval call scope).Refines (x.eval call' scope)
  | .name _ => .refl _
  | .int _ => .refl _
  | .text _ => .refl _
  | .bool _ => .refl _
  | .array items => (evalExprs_refines hcall items).bind fun _ => .refl _
  | .hash pairs => (evalPairs_refines hcall pairs []).bind fun _ => .refl _
  | .unary _ x => (x.eval_refines hcall).bind fun _ => .refl _
  | .binary _ x y =>
    (x.eval_refines hcall).bind fun _ => (y.eval_refines hcall).bind fun _ => .refl _
  | .cond c yes none => by
    refine (c.eval_refines hcall).bind fun v => ?_
    split
    · exact evalBlock_refines hcall yes .null
    · exact .refl _
  | .cond c yes (some no) => by
    refine (c.eval_refines hcall).bind fun v => ?_
    split
    · exact evalBlock_refines hcall yes .null
    · exact evalBlock_refines hcall no .null
  | .fn _ _ _ => .refl _
  | .call f args =>
    (f.eval_refines hcall).bind fun v => (evalExprs_refines hcall args).bind fun vs => hcall v vs
  | .index x i => (x.eval_refines hcall).bind fun _ => (i.eval_refines hcall).bind fun _ => .refl _

theorem evalExprs_refines (hcall : ∀ f args, (call f args).Refines (call' f args)) :
    ∀ xs : List (Expr τ), (evalExprs call scope xs).Refines (evalExprs call' scope xs)
  | [] => .refl _
  | x :: xs =>
    (x.eval_refines hcall).bind fun _ => (evalExprs_refines hcall xs).bind fun _ => .refl _

theorem evalPairs_refines (hcall : ∀ f args, (call f args).Refines (call' f args)) :
    ∀ (ps : List (Expr τ × Expr τ)) (stored : List (Key × Stored τ)),
      (evalPairs call scope stored ps).Refines (evalPairs call' scope stored ps)
  | [], _ => .refl _
  | (x, y) :: ps, _ => (x.eval_refines hcall).bind fun _ => (Eval.Refines.refl _).bind fun _ =>
    (y.eval_refines hcall).bind fun _ => evalPairs_refines hcall ps _

theorem evalBlock_refines (hcall : ∀ f args, (call f args).Refines (call' f args)) :
    ∀ (b : List (Stmt τ)) (last : Value τ),
      (evalBlock call scope last b).Refines (evalBlock call' scope last b)
  | [], _ => .refl _
  | s :: b, _ => (s.eval_refines hcall).bind fun v => evalBlock_refines hcall b v

theorem Stmt.eval_refines (hcall : ∀ f args, (call f args).Refines (call' f args)) :
    ∀ s : Stmt τ, (s.eval call scope).Refines (s.eval call' scope)
  | .bind _ x => (x.eval_refines hcall).bind fun _ => .refl _
  | .ret x => (x.eval_refines hcall).bind fun _ => .refl _
  | .expr x => x.eval_refines hcall

end

end Trees

/-! ## Calls -/

/-- Entering a closure uses the caller for the calls in its body only. -/
theorem Closure.enter_refines {call call' : Caller τ}
    (hcall : ∀ f args, (call f args).Refines (call' f args)) (f : Closure τ)
    (args : List (Value τ)) : (f.enter call args).Refines (f.enter call' args) := by
  intro s x h
  rw [enter_eq] at h ⊢
  obtain ⟨⟨r, t⟩, hbody, rfl⟩ := Option.map_eq_some_iff.mp h
  rw [evalBlock_refines hcall f.body .null hbody]
  rfl

theorem applyWith_refines {enter enter' : Closure τ → List (Value τ) → Eval τ (Value τ)}
    (henter : ∀ f args, (enter f args).Refines (enter' f args)) (f : Value τ)
    (args : List (Value τ)) : (applyWith enter f args).Refines (applyWith enter' f args) := by
  unfold applyWith
  split
  · split
    · exact henter _ args
    · exact .refl _
  · exact .refl _
  · exact .refl _

/-- One more level of calls keeps every result. -/
theorem apply_refines_succ (depth : Nat) (f : Value τ) (args : List (Value τ)) :
    (apply depth f args).Refines (apply (depth + 1) f args) := by
  induction depth generalizing f args with
  | zero => exact applyWith_refines (fun _ _ => .tooDeep _) f args
  | succ depth ih => exact applyWith_refines (fun g vs => g.enter_refines ih vs) f args

/-- **A call that has an end keeps it if calls may nest deeper.** -/
theorem apply_refines {depth depth' : Nat} (h : depth ≤ depth') (f : Value τ)
    (args : List (Value τ)) : (apply depth f args).Refines (apply depth' f args) := by
  induction h with
  | refl => exact .refl _
  | step _ ih => exact ih.trans (apply_refines_succ _ f args)

/-! ## Ends -/

/-- A program ends with an outcome and leaves a machine, if calls may nest deep enough. -/
def Program.Ends (p : Program τ) (scope : ScopeId) (s : Machine τ)
    (r : Except EvalError (Value τ)) (t : Machine τ) : Prop :=
  ∃ depth, p.run depth scope s = some (r, t)

/-- A call ends with an outcome and leaves a machine, if calls may nest deep enough. -/
def Value.CallEnds (f : Value τ) (args : List (Value τ)) (s : Machine τ)
    (r : Except EvalError (Value τ)) (t : Machine τ) : Prop :=
  ∃ depth, f.call depth args s = some (r, t)

theorem Eval.Refines.run {e e' : Eval τ (Value τ)} (h : e.Refines e') {s : Machine τ}
    {x : Except EvalError (Value τ) × Machine τ} (hx : e.run s = some x) : e'.run s = some x := by
  obtain ⟨y, hy, rfl⟩ := Option.map_eq_some_iff.mp hx
  unfold Eval.run
  rw [h hy]
  rfl

/-- Two ends for two depths are one end for the larger of them. -/
theorem eq_of_refines {e : Nat → Eval τ (Value τ)}
    (he : ∀ {d d'}, d ≤ d' → (e d).Refines (e d')) {d d' : Nat} {s : Machine τ}
    {x y : Except EvalError (Value τ) × Machine τ} (hx : (e d).run s = some x)
    (hy : (e d').run s = some y) : x = y := by
  have hx' := (he (Nat.le_max_left d d')).run hx
  have hy' := (he (Nat.le_max_right d d')).run hy
  exact Option.some.inj (hx'.symm.trans hy')

/-- **A program ends in one way only.** -/
theorem Program.Ends.unique {p : Program τ} {scope : ScopeId} {s t t' : Machine τ}
    {r r' : Except EvalError (Value τ)} (h : p.Ends scope s r t) (h' : p.Ends scope s r' t') :
    r = r' ∧ t = t' := by
  obtain ⟨d, hd⟩ := h
  obtain ⟨d', hd'⟩ := h'
  rw [p.run_eq] at hd hd'
  have heq := eq_of_refines (e := fun d => evalBlock (apply d) scope .null p)
    (fun hle => evalBlock_refines (apply_refines hle) p .null) hd hd'
  exact Prod.mk.inj heq

/-- **A call ends in one way only.** -/
theorem Value.CallEnds.unique {f : Value τ} {args : List (Value τ)} {s t t' : Machine τ}
    {r r' : Except EvalError (Value τ)} (h : f.CallEnds args s r t)
    (h' : f.CallEnds args s r' t') : r = r' ∧ t = t' := by
  obtain ⟨d, hd⟩ := h
  obtain ⟨d', hd'⟩ := h'
  have heq := eq_of_refines (e := fun d => apply d f args)
    (fun hle => apply_refines hle f args) hd hd'
  exact Prod.mk.inj heq

end ClosureLang
