import ClosureLang.Proofs.Eval.Frame
import ClosureLang.Proofs.Store.Alike

/-!
# Evaluations that go alike

On stores that are alike, a tree evaluated in scopes that correspond does the same: neither
evaluation has an end, or both end with the same error or with values that are alike, on stores
that are alike again. `Eval.Alike` is this relation between two evaluations. One lemma for each
step shows what the step keeps, and the trees follow their constructors.

Main statements: `Expr.eval_alike` and its companions for trees, and `apply_alike` for calls. They
hold for one bound on the depth of calls on both sides, so that the one evaluation has an end
exactly if the other has.
-/

namespace ClosureLang

variable {τ α β γ δ : Type} {m : Matching}

/-- The same kind of end: results that are related, returned values that are alike, or the same
error. -/
inductive SameEnd (m : Matching) (Q : α → β → Prop) :
    Except (Exit τ) α → Except (Exit τ) β → Prop where
  | ok {a : α} {b : β} : Q a b → SameEnd m Q (.ok a) (.ok b)
  | returned {v w : Value τ} : v.Alike m w →
      SameEnd m Q (.error (.returned v)) (.error (.returned w))
  | failed (e : EvalError) : SameEnd m Q (.error (.failed e)) (.error (.failed e))

/-- Neither of two evaluations has an end, or both have the same kind of end and leave stores that
are alike. -/
inductive GoAlike (m : Matching) (Q : α → β → Prop) :
    Option (Except (Exit τ) α × Machine τ) → Option (Except (Exit τ) β × Machine τ) → Prop where
  | neither : GoAlike m Q none none
  | both {r : Except (Exit τ) α} {r' : Except (Exit τ) β} {s t : Machine τ} : SameEnd m Q r r' →
      s.store.Alike m t.store → GoAlike m Q (some (r, s)) (some (r', t))

/-- Evaluations that go alike on stores that are alike, with results that are related by `Q`. -/
def Eval.Alike (m : Matching) (Q : α → β → Prop) (e : Eval τ α) (e' : Eval τ β) : Prop :=
  ∀ ⦃s t⦄, s.store.Alike m t.store → GoAlike m Q (e s) (e' t)

namespace Eval.Alike

variable {P : α → β → Prop} {Q : γ → δ → Prop}

theorem pure {a : α} {b : β} (h : P a b) :
    Eval.Alike m P (Pure.pure a : Eval τ α) (Pure.pure b) :=
  fun _ _ hst => .both (.ok h) hst

/-- Steps in a row: the second pair of steps starts from stores and results that are alike. -/
theorem bind {e : Eval τ α} {e' : Eval τ β} {f : α → Eval τ γ} {f' : β → Eval τ δ}
    (he : Eval.Alike m P e e') (hf : ∀ a b, P a b → Eval.Alike m Q (f a) (f' b)) :
    Eval.Alike m Q (e >>= f) (e' >>= f') := by
  intro s t hst
  have hgo := he hst
  show GoAlike m Q (andThen e f s) (andThen e' f' t)
  unfold andThen
  generalize e s = o at hgo
  generalize e' t = o' at hgo
  cases hgo with
  | neither => exact .neither
  | both hend hst' =>
    cases hend with
    | ok hab => exact hf _ _ hab hst'
    | returned hvw => exact .both (.returned hvw) hst'
    | failed e => exact .both (.failed e) hst'

/-- A return leaves with its value, so the values have to be alike. -/
theorem returned {v w : Value τ} (h : v.Alike m w) :
    Eval.Alike m P (Eval.exit (.returned v)) (Eval.exit (.returned w)) :=
  fun _ _ hst => .both (.returned h) hst

theorem failed (e : EvalError) :
    Eval.Alike m P (Eval.exit (.failed e) : Eval τ α) (Eval.exit (.failed e)) :=
  fun _ _ hst => .both (.failed e) hst

theorem tooDeep : Eval.Alike m P (Eval.tooDeep : Eval τ α) Eval.tooDeep :=
  fun _ _ _ => .neither

theorem lift {r : Except EvalError α} {r' : Except EvalError β} (h : SameOutcome P r r') :
    Eval.Alike m P (Eval.lift r : Eval τ α) (Eval.lift r') := by
  intro s t hst
  cases h with
  | ok hab => exact .both (.ok hab) hst
  | error e => exact .both (.failed e) hst

/-- A visible name is bound to alike values in alike stores. -/
theorem name {i j : ScopeId} (hij : m.Scopes i j) {n : String} (hn : m.Visible n) :
    Eval.Alike m (Value.Alike m) (Eval.name i n : Eval τ (Value τ)) (Eval.name j n) := by
  intro s t hst
  have hfound := hst.lookup hn hij
  unfold Eval.name
  generalize s.store.lookup n i = o at hfound
  generalize t.store.lookup n j = o' at hfound
  cases hfound with
  | some hvw => exact .both (.ok hvw) hst
  | none =>
    cases Builtin.ofName? n with
    | some f => exact .both (.ok (.builtin f)) hst
    | none => exact .both (.failed _) hst

theorem record (c : CallEvent) : Eval.Alike m Eq (Eval.record c : Eval τ Unit) (Eval.record c) :=
  fun _ _ hst => .both (.ok rfl) hst

/-- The same name is defined in both stores, so they stay alike. -/
theorem define {i j : ScopeId} (hij : m.Scopes i j) {v w : Value τ} (hvw : v.Alike m w)
    (n : String) : Eval.Alike m Eq (Eval.define i n v) (Eval.define j n w) :=
  fun _ _ hst => .both (.ok rfl) (hst.define hij hvw n)

end Eval.Alike

/-! ## Trees -/

/-- Callers that do the same with values that are alike. -/
def Caller.Alike (m : Matching) (call call' : Caller τ) : Prop :=
  ∀ ⦃f f' args args'⦄, f.Alike m f' → List.Forall₂ (Value.Alike m) args args' →
    Eval.Alike m (Value.Alike m) (call f args) (call' f' args')

section Trees

variable {call call' : Caller τ} {i j : ScopeId}

mutual

/-- **An expression goes alike in scopes that correspond**, if calls do. -/
theorem Expr.eval_alike (hcall : Caller.Alike m call call') (hij : m.Scopes i j) : ∀ x : Expr τ,
    (∀ n ∈ x.names, m.Visible n) →
    Eval.Alike m (Value.Alike m) (x.eval call i) (x.eval call' j)
  | .name n, hx => .name hij (hx n List.mem_cons_self)
  | .int n, _ => .pure (.int n)
  | .text s, _ => .pure (.text s)
  | .bool b, _ => .pure (.bool b)
  | .array items, hx => (evalExprs_alike hcall hij items hx).bind fun _ _ h => .pure (.array h)
  | .hash pairs, hx => (evalPairs_alike hcall hij pairs hx .nil).bind fun _ _ h => .pure (.hash h)
  | .unary op x, hx => (x.eval_alike hcall hij hx).bind fun _ _ h => .lift (op.eval_alike h)
  | .binary op x y, hx => by
    rw [Expr.names, List.forall_mem_append] at hx
    exact (x.eval_alike hcall hij hx.1).bind fun _ _ h =>
      (y.eval_alike hcall hij hx.2).bind fun _ _ h' => .lift (op.eval_alike h h')
  | .cond c yes none, hx => by
    rw [Expr.names, List.forall_mem_append] at hx
    refine (c.eval_alike hcall hij hx.1).bind fun v w hvw => ?_
    rw [hvw.truthy_eq]
    split
    · exact evalBlock_alike hcall hij yes hx.2 .null
    · exact .pure .null
  | .cond c yes (some no), hx => by
    rw [Expr.names, List.forall_mem_append, List.forall_mem_append] at hx
    refine (c.eval_alike hcall hij hx.1).bind fun v w hvw => ?_
    rw [hvw.truthy_eq]
    split
    · exact evalBlock_alike hcall hij yes hx.2.1 .null
    · exact evalBlock_alike hcall hij no hx.2.2 .null
  | .fn _ _ _, hx => .pure (.closure hij hx)
  | .call f args, hx => by
    rw [Expr.names, List.forall_mem_append] at hx
    exact (f.eval_alike hcall hij hx.1).bind fun _ _ h =>
      (evalExprs_alike hcall hij args hx.2).bind fun _ _ h' => hcall h h'
  | .index x y, hx => by
    rw [Expr.names, List.forall_mem_append] at hx
    exact (x.eval_alike hcall hij hx.1).bind fun _ _ h =>
      (y.eval_alike hcall hij hx.2).bind fun _ _ h' => .lift (Value.index_alike h h')

theorem evalExprs_alike (hcall : Caller.Alike m call call') (hij : m.Scopes i j) :
    ∀ xs : List (Expr τ), (∀ n ∈ namesOfExprs xs, m.Visible n) →
      Eval.Alike m (List.Forall₂ (Value.Alike m)) (evalExprs call i xs) (evalExprs call' j xs)
  | [], _ => .pure .nil
  | x :: xs, hx => by
    rw [namesOfExprs, List.forall_mem_append] at hx
    exact (x.eval_alike hcall hij hx.1).bind fun _ _ h =>
      (evalExprs_alike hcall hij xs hx.2).bind fun _ _ hs => .pure (.cons h hs)

/-- Alike keys are the same key, so alike entries are inserted at the same places. -/
theorem evalPairs_alike (hcall : Caller.Alike m call call') (hij : m.Scopes i j) :
    ∀ (ps : List (Expr τ × Expr τ)) {es fs : List (Key × Stored τ)},
      (∀ n ∈ namesOfPairs ps, m.Visible n) →
      List.Forall₂ (EntryAlike m) (entriesOf es) (entriesOf fs) →
      Eval.Alike m (fun es fs => List.Forall₂ (EntryAlike m) (entriesOf es) (entriesOf fs))
        (evalPairs call i es ps) (evalPairs call' j fs ps)
  | [], _, _, _, h => .pure h
  | (x, y) :: ps, _, _, hx, h => by
    rw [namesOfPairs, List.forall_mem_append, List.forall_mem_append] at hx
    refine (x.eval_alike hcall hij hx.1).bind fun k l hkl => ?_
    refine (Eval.Alike.lift (Value.key_alike hkl)).bind fun k _ hk => ?_
    subst hk
    refine (y.eval_alike hcall hij hx.2.1).bind fun v w hvw => ?_
    refine evalPairs_alike hcall hij ps hx.2.2 ?_
    rw [entriesOf_insertEntry, entriesOf_insertEntry]
    exact insertEntry_alike k hvw h

theorem evalBlock_alike (hcall : Caller.Alike m call call') (hij : m.Scopes i j) :
    ∀ (b : List (Stmt τ)) {last last' : Value τ}, (∀ n ∈ namesOfBlock b, m.Visible n) →
      last.Alike m last' →
      Eval.Alike m (Value.Alike m) (evalBlock call i last b) (evalBlock call' j last' b)
  | [], _, _, _, h => .pure h
  | s :: b, _, _, hb, _ => by
    rw [namesOfBlock, List.forall_mem_append] at hb
    exact (s.eval_alike hcall hij hb.1).bind fun _ _ h => evalBlock_alike hcall hij b hb.2 h

theorem Stmt.eval_alike (hcall : Caller.Alike m call call') (hij : m.Scopes i j) :
    ∀ s : Stmt τ, (∀ n ∈ s.names, m.Visible n) →
      Eval.Alike m (Value.Alike m) (s.eval call i) (s.eval call' j)
  | .bind n x, hs => by
    rw [Stmt.names, List.forall_mem_cons] at hs
    exact (x.eval_alike hcall hij hs.2).bind fun _ _ h =>
      (Eval.Alike.define hij h n).bind fun _ _ _ => .pure h
  | .ret x, hs => (x.eval_alike hcall hij hs).bind fun _ _ h => .returned h
  | .expr x, hs => x.eval_alike hcall hij hs

end

end Trees

/-! ## Calls -/

theorem Store.Alike.foldl_define {i j : ScopeId} (hij : m.Scopes i j) (params : List String)
    {args args' : List (Value τ)} (hargs : List.Forall₂ (Value.Alike m) args args')
    {s t : Store τ} (h : s.Alike m t) :
    ((params.zip args).foldl (fun u e => u.define i e.1 e.2) s).Alike m
      ((params.zip args').foldl (fun u e => u.define j e.1 e.2) t) := by
  induction hargs generalizing params s t with
  | nil => simpa using h
  | cons hvw _ ih =>
    cases params with
    | nil => exact h
    | cons n params => exact ih params (h.define hij hvw n)

/-- The bodies of a closure start on stores that are alike, in scopes that correspond. -/
theorem Closure.start_alike (params : List String) (body : Block τ) (tag : τ) {i j : ScopeId}
    (hij : m.Scopes i j) {args args' : List (Value τ)}
    (hargs : List.Forall₂ (Value.Alike m) args args') {s t : Machine τ}
    (h : s.store.Alike m t.store) :
    (Closure.start ⟨params, body, tag, i⟩ args s).store.Alike m
      (Closure.start ⟨params, body, tag, j⟩ args' t).store :=
  (h.add (.linked hij)).foldl_define h.next params hargs

/-- A whole body settles alike. -/
theorem SameEnd.settle {r r' : Except (Exit τ) (Value τ)} (h : SameEnd m (Value.Alike m) r r') :
    SameOutcome (Value.Alike m) (ClosureLang.settle r) (ClosureLang.settle r') := by
  cases h with
  | ok hvw => exact .ok hvw
  | returned hvw => exact .ok hvw
  | failed e => exact .error e

/-- Alike closures have the same parameters and body, and scopes that correspond. -/
theorem Closure.enter_alike {call call' : Caller τ} (hcall : Caller.Alike m call call')
    {params : List String} {body : Block τ} {tag : τ} {i j : ScopeId} (hij : m.Scopes i j)
    (hnames : ∀ n ∈ params ++ namesOfBlock body, m.Visible n) {args args' : List (Value τ)}
    (hargs : List.Forall₂ (Value.Alike m) args args') :
    Eval.Alike m (Value.Alike m) (Closure.enter call ⟨params, body, tag, i⟩ args)
      (Closure.enter call' ⟨params, body, tag, j⟩ args') := by
  intro s t hst
  rw [enter_eq, enter_eq]
  have hbody := evalBlock_alike hcall hst.next body (List.forall_mem_append.mp hnames).2 .null
    (start_alike params body tag hij hargs hst)
  generalize evalBlock call _ _ _ _ = o at hbody
  generalize evalBlock call' _ _ _ _ = o' at hbody
  cases hbody with
  | neither => exact .neither
  | both hend hst' => exact Eval.Alike.lift hend.settle hst'

theorem applyWith_alike {enter enter' : Closure τ → List (Value τ) → Eval τ (Value τ)}
    (henter : ∀ ⦃params body tag i j args args'⦄, m.Scopes i j →
      (∀ n ∈ params ++ namesOfBlock body, m.Visible n) →
      List.Forall₂ (Value.Alike m) args args' →
      Eval.Alike m (Value.Alike m) (enter ⟨params, body, tag, i⟩ args)
        (enter' ⟨params, body, tag, j⟩ args')) :
    Caller.Alike m (applyWith enter) (applyWith enter') := by
  intro f f' args args' hf hargs
  have hlength := hargs.length_eq
  cases hf with
  | closure hij hnames =>
    simp only [applyWith, hlength]
    split
    · exact henter hij hnames hargs
    · exact .failed _
  | builtin f =>
    simp only [applyWith, hlength]
    exact (Eval.Alike.record _).bind fun _ _ _ => .lift (f.eval_alike hargs)
  | _ => exact .failed _

/-- **Calls of values that are alike go alike**, however deep calls may nest. -/
theorem apply_alike (depth : Nat) : Caller.Alike m (apply depth : Caller τ) (apply depth) := by
  induction depth with
  | zero => exact applyWith_alike fun _ _ _ _ _ _ _ _ _ _ => .tooDeep
  | succ depth ih =>
    exact applyWith_alike fun _ _ _ _ _ _ _ hij hnames hargs =>
      Closure.enter_alike ih hij hnames hargs

/-! ## Programs and calls as seen from outside -/

/-- What two runs give, seen from outside: the same outcome, and machines with stores that are
alike. -/
structure SameRun (m : Matching) (x y : Except EvalError (Value τ) × Machine τ) : Prop where
  outcome : SameOutcome (Value.Alike m) x.1 y.1
  store : x.2.store.Alike m y.2.store

/-- Evaluations that are alike have the same run, or neither has one. -/
theorem Eval.Alike.run {e e' : Eval τ (Value τ)} (h : Eval.Alike m (Value.Alike m) e e')
    {s t : Machine τ} (hst : s.store.Alike m t.store) :
    Option.Rel (SameRun m) (e.run s) (e'.run t) := by
  have hgo := h hst
  unfold Eval.run
  generalize e s = o at hgo
  generalize e' t = o' at hgo
  cases hgo with
  | neither => exact .none
  | both hend hst' => exact .some ⟨hend.settle, hst'⟩

/-- **A program has the same run on machines with stores that are alike**, if its names count. What
the machines have recorded of calls does not matter. -/
theorem Program.run_alike {p : Program τ} {i j : ScopeId} {s t : Machine τ}
    (hnames : ∀ n ∈ namesOfBlock p, m.Visible n) (hij : m.Scopes i j)
    (hst : s.store.Alike m t.store) (depth : Nat) :
    Option.Rel (SameRun m) (p.run depth i s) (p.run depth j t) := by
  rw [p.run_eq, p.run_eq]
  exact (evalBlock_alike (apply_alike depth) hij p hnames .null).run hst

/-- Outcomes that are the same have the same text or error. -/
theorem SameOutcome.display {r r' : Except EvalError (Value τ)}
    (h : SameOutcome (Value.Alike m) r r') : r.map Value.display = r'.map Value.display := by
  cases h with
  | ok hvw => exact congrArg Except.ok hvw.display
  | error e => rfl

end ClosureLang
