import ClosureLang.Proofs.Eval.Frame
import ClosureLang.Proofs.Store.Bindings
import Mathlib.Data.List.Forall2

/-!
# Evaluations that give a value

`e.Gives base v` is that `e` ends with `v` on every store that has grown out of `base`, and that it
lets the store only grow: scopes are added, and those that are there stay as they are. Names keep
their values while a store grows (`Store.Grows.lookup`), so what an expression gives is found part
by part, whatever scopes the calls in it leave behind.

Main statement: the call of a function gives what its body gives in the scope that is made for the
call (`Eval.Gives.closure`), from which the arguments are found first and then all that is found
from the scope of the function (`Closure.lookup_start`).
-/

namespace ClosureLang

variable {τ α β : Type}

/-! ## Stores that grow -/

/-- Scopes are added, and those that are there stay as they are. -/
abbrev Store.Grows (s t : Store τ) : Prop := s.Adds (fun _ _ => False) t

/-- **Names keep their values while a store grows.** -/
theorem Store.Grows.lookup {s t : Store τ} (h : s.Grows t) {i : ScopeId} (hi : i < s.scopes.size)
    (n : String) : t.lookup n i = s.lookup n i :=
  lookup_congr (fun _ hj => h.getElem?_eq (Nat.lt_of_le_of_lt hj hi) fun _ hno => hno) n

/-- A scope from which a name is found exists. -/
theorem Store.lt_size_of_lookup {s : Store τ} {n : String} {i : ScopeId} {v : Value τ}
    (h : s.lookup n i = some v) : i < s.scopes.size := by
  by_contra hi
  rw [lookup, Array.getElem?_eq_none (Nat.not_lt.mp hi)] at h
  cases h

/-! ## Evaluations -/

/-- On every store that has grown out of `base` the evaluation ends with `a`, and the store only
grows. -/
def Eval.Gives (base : Store τ) (e : Eval τ α) (a : α) : Prop :=
  ∀ ⦃s : Machine τ⦄, base.Grows s.store → ∃ t, e s = some (.ok a, t) ∧ s.store.Grows t.store

theorem Builtin.ofName?_name (f : Builtin) : ofName? f.name = some f := by
  cases f <;> rfl

namespace Eval.Gives

variable {base : Store τ} {e : Eval τ α} {a : α} {scope : ScopeId}

/-- What an evaluation gives in a store it gives in one that has grown from it. -/
theorem mono {later : Store τ} (h : e.Gives base a) (hgrows : base.Grows later) :
    e.Gives later a :=
  fun _ hs => h (hgrows.trans hs)

theorem ends {s : Machine τ} (h : e.Gives s.store a) : ∃ t, e s = some (.ok a, t) := by
  obtain ⟨t, ht, -⟩ := h (.refl _)
  exact ⟨t, ht⟩

theorem pure (a : α) : (Pure.pure a : Eval τ α).Gives base a :=
  fun s _ => ⟨s, rfl, .refl _⟩

/-- Steps in a row: both give their results in any store that has grown from `base`. -/
theorem bind {f : α → Eval τ β} {b : β} (he : e.Gives base a) (hf : (f a).Gives base b) :
    (e >>= f).Gives base b := by
  intro s hs
  obtain ⟨t, het, hst⟩ := he hs
  obtain ⟨u, hfu, htu⟩ := hf (hs.trans hst)
  exact ⟨u, (bind_of_ok het).trans hfu, hst.trans htu⟩

theorem lift {r : Except EvalError α} (h : r = .ok a) : (Eval.lift r : Eval τ α).Gives base a := by
  subst h
  exact fun s _ => ⟨s, rfl, .refl _⟩

theorem record (c : CallEvent) : (Eval.record c : Eval τ Unit).Gives base () :=
  fun s _ => ⟨{ s with calls := s.calls.push c }, rfl, .refl _⟩

theorem name {n : String} {v : Value τ} (h : base.lookup n scope = some v) :
    (Eval.name scope n).Gives base v := by
  intro s hs
  refine ⟨s, ?_, .refl _⟩
  unfold Eval.name
  rw [hs.lookup (Store.lt_size_of_lookup h), h]

/-- The name of a builtin that is bound nowhere stands for the builtin. -/
theorem builtin {f : Builtin} (hscope : scope < base.scopes.size)
    (h : base.lookup f.name scope = none) :
    (Eval.name scope f.name : Eval τ (Value τ)).Gives base (.builtin f) := by
  intro s hs
  refine ⟨s, ?_, .refl _⟩
  unfold Eval.name
  rw [hs.lookup hscope, h, Builtin.ofName?_name]

/-! ## Trees -/

variable {call : Caller τ}

theorem exprs {xs : List (Expr τ)} {vs : List (Value τ)}
    (h : List.Forall₂ (fun x v => (x.eval call scope).Gives base v) xs vs) :
    (evalExprs call scope xs).Gives base vs := by
  induction h with
  | nil => exact .pure []
  | cons hx _ ih => exact hx.bind (ih.bind (.pure _))

theorem array {items : List (Expr τ)} {vs : List (Value τ)}
    (h : List.Forall₂ (fun x v => (x.eval call scope).Gives base v) items vs) :
    ((Expr.array items).eval call scope).Gives base (.array vs) :=
  (exprs h).bind (.pure _)

theorem binary {op : BinaryOp} {x y : Expr τ} {v w r : Value τ}
    (hx : (x.eval call scope).Gives base v) (hy : (y.eval call scope).Gives base w)
    (h : op.eval v w = .ok r) : ((Expr.binary op x y).eval call scope).Gives base r :=
  hx.bind (hy.bind (.lift h))

/-- A conditional gives what its chosen block gives. -/
theorem cond {test : Expr τ} {yes no : Block τ} {v r : Value τ}
    (htest : (test.eval call scope).Gives base v)
    (h : (evalBlock call scope .null (if v.truthy then yes else no)).Gives base r) :
    ((Expr.cond test yes (some no)).eval call scope).Gives base r := by
  refine htest.bind ?_
  split at h
  · next hv => rwa [if_pos hv]
  · next hv => rwa [if_neg hv]

/-- A call gives what the function gives for the values of the arguments. -/
theorem applied {f : Expr τ} {args : List (Expr τ)} {v r : Value τ} {vs : List (Value τ)}
    (hf : (f.eval call scope).Gives base v)
    (hargs : List.Forall₂ (fun x v => (x.eval call scope).Gives base v) args vs)
    (h : (call v vs).Gives base r) : ((Expr.call f args).eval call scope).Gives base r :=
  hf.bind ((exprs hargs).bind h)

/-- A block that is one expression. -/
theorem block {x : Expr τ} {v : Value τ} (h : (x.eval call scope).Gives base v) (last : Value τ) :
    (evalBlock call scope last [.expr x]).Gives base v :=
  h.bind (.pure v)

end Eval.Gives

/-- A function that is bound is made in the scope in which it is bound. -/
theorem evalBlock_bind_fn (call : Caller τ) (scope : ScopeId) (last : Value τ) (n : String)
    (tag : τ) (params : List String) (body : Block τ) (b : List (Stmt τ)) (s : Machine τ) :
    evalBlock call scope last (.bind n (.fn tag params body) :: b) s =
      evalBlock call scope (.closure ⟨params, body, tag, scope⟩) b
        { s with store := s.store.define scope n (.closure ⟨params, body, tag, scope⟩) } :=
  rfl

/-! ## Calls -/

/-- The call of a builtin by its name. -/
theorem Eval.Gives.appliedBuiltin {base : Store τ} {scope : ScopeId} {f : Builtin} {depth : Nat}
    {args : List (Expr τ)} {vs : List (Value τ)} {r : Value τ} (hscope : scope < base.scopes.size)
    (hf : base.lookup f.name scope = none)
    (hargs : List.Forall₂ (fun x v => (x.eval (apply depth) scope).Gives base v) args vs)
    (h : f.eval vs = .ok r) :
    ((Expr.call (.name f.name) args).eval (apply depth) scope).Gives base r := by
  refine .applied (.builtin hscope hf) hargs ?_
  cases depth <;> exact (record _).bind (.lift h)

theorem Store.getElem?_foldl_define {s : Store τ} {i : ScopeId} {c : Scope τ}
    (h : s.scopes[i]? = some c) (bindings : List (String × Value τ)) :
    (bindings.foldl (fun u e => u.define i e.1 e.2) s).scopes[i]? =
      some { c with bindings := bindings.reverse ++ c.bindings } := by
  induction bindings generalizing s c with
  | nil => exact h
  | cons e bindings ih =>
    rw [List.foldl_cons, ih (c := { c with bindings := e :: c.bindings }), List.reverse_cons,
      List.append_assoc, List.singleton_append]
    rw [getElem?_define, if_pos rfl, h, Option.map_some]

namespace Closure

variable (f : Closure τ) (args : List (Value τ)) (s : Machine τ)

theorem start_grows : s.store.Grows (f.start args s).store :=
  (Store.Adds.foldl_define _ _ _).of_add

/-- The scope of a call holds the arguments under the parameters and is inside of the captured
scope. -/
theorem getElem?_start : (f.start args s).store.scopes[s.store.scopes.size]? =
    some ⟨(f.params.zip args).reverse, some f.scope⟩ := by
  have hnew : (s.store.add (some f.scope)).2.scopes[s.store.scopes.size]? =
      some ⟨[], some f.scope⟩ := by
    simp [Store.add]
  rw [start, Store.getElem?_foldl_define hnew, List.append_nil]

/-- **The body of a function sees the arguments and, behind them, what is seen from the scope in
which the function was made.** -/
theorem lookup_start (hscope : f.scope < s.store.scopes.size) (n : String) :
    (f.start args s).store.lookup n s.store.scopes.size =
      ((f.params.zip args).reverse.lookup n).or (s.store.lookup n f.scope) := by
  rw [Store.lookup_eq _ n _ (f.getElem?_start args s)]
  cases (f.params.zip args).reverse.lookup n with
  | some v => rfl
  | none =>
    simp only [if_pos hscope, Option.none_or]
    exact (f.start_grows args s).lookup hscope n

end Closure

/-- **The call of a function gives what its body ends with** in the scope that is made for the call.
The store has only grown then, whatever names the body binds in that scope. -/
theorem Eval.Gives.closure_of_ends {base : Store τ} {f : Closure τ} {args : List (Value τ)}
    {depth : Nat} {v : Value τ} (hcount : f.params.length = args.length)
    (hbody : ∀ s : Machine τ, base.Grows s.store → ∃ t,
      evalBlock (apply depth) s.store.scopes.size .null f.body (f.start args s) =
        some (.ok v, t)) :
    (apply (depth + 1) (.closure f) args).Gives base v := by
  intro s hs
  obtain ⟨t, ht⟩ := hbody s hs
  have hcall : apply (depth + 1) (.closure f) args s = some (.ok v, t) := by
    rw [apply, applyWith, if_pos hcount, Closure.enter_eq, ht]
    rfl
  exact ⟨t, hcall, apply_adds (depth + 1) _ _ hcall⟩

/-- A body that binds no names gives its value on the store with the scope of the call. -/
theorem Eval.Gives.closure {base : Store τ} {f : Closure τ} {args : List (Value τ)} {depth : Nat}
    {v : Value τ} (hcount : f.params.length = args.length)
    (hbody : ∀ s : Machine τ, base.Grows s.store →
      (evalBlock (apply depth) s.store.scopes.size .null f.body).Gives (f.start args s).store v) :
    (apply (depth + 1) (.closure f) args).Gives base v :=
  .closure_of_ends hcount fun s hs => (hbody s hs).ends

end ClosureLang
