import ClosureLang.Eval.Program

/-!
# What evaluation writes

A scope only ever gains bindings, in front of those that it has, and its link to the scope around it
stays. `Store.Adds` is that one store comes from another in this way, with a condition on where
and under which names bindings were added, and every step of an evaluation is measured by it.

Main statement: `evaluation_writes_only`. A tree writes only in the scope in which it is evaluated,
and there only the names of its `let` statements outside function literals. A call writes in no
scope that was there before, since the body runs in a scope made for it (`Store.Adds.of_add`).
-/

namespace ClosureLang

variable {τ α β : Type}

/-! ## The names of the bindings in a tree -/

mutual

/-- The names of the `let` statements in an expression, outside function literals. -/
def Expr.lets : Expr τ → List String
  | .name _ => []
  | .int _ => []
  | .text _ => []
  | .bool _ => []
  | .array items => letsOfExprs items
  | .hash pairs => letsOfPairs pairs
  | .unary _ x => x.lets
  | .binary _ x y => x.lets ++ y.lets
  | .cond c yes none => c.lets ++ letsOfBlock yes
  | .cond c yes (some no) => c.lets ++ (letsOfBlock yes ++ letsOfBlock no)
  | .fn _ _ _ => []
  | .call f args => f.lets ++ letsOfExprs args
  | .index x i => x.lets ++ i.lets

/-- The names of the `let` statements in some expressions. -/
def letsOfExprs : List (Expr τ) → List String
  | [] => []
  | x :: xs => x.lets ++ letsOfExprs xs

/-- The names of the `let` statements in the pairs of a hash literal. -/
def letsOfPairs : List (Expr τ × Expr τ) → List String
  | [] => []
  | (k, v) :: ps => k.lets ++ (v.lets ++ letsOfPairs ps)

/-- The names of the `let` statements in a block or a program. -/
def letsOfBlock : List (Stmt τ) → List String
  | [] => []
  | s :: b => s.lets ++ letsOfBlock b

/-- The names of the `let` statements in a statement. -/
def Stmt.lets : Stmt τ → List String
  | .bind n x => n :: x.lets
  | .ret x => x.lets
  | .expr x => x.lets

end

/-! ## Stores that gain bindings -/

/-- The scopes of `s` are in `t`, with bindings added where `allowed` permits them. -/
def Store.Adds (allowed : ScopeId → String → Prop) (s t : Store τ) : Prop :=
  ∀ ⦃i c⦄, s.scopes[i]? = some c →
    ∃ added, t.scopes[i]? = some { c with bindings := added ++ c.bindings } ∧
      ∀ e ∈ added, allowed i e.1

namespace Store.Adds

variable {allowed : ScopeId → String → Prop} {s t u : Store τ}

theorem refl (s : Store τ) : s.Adds allowed s := fun _ _ hc => ⟨[], hc, by simp⟩

/-- Bindings are added behind those there are, so what is added in two steps is added in one. -/
theorem trans (hst : s.Adds allowed t) (htu : t.Adds allowed u) : s.Adds allowed u := by
  intro i c hc
  obtain ⟨added₁, ht, h₁⟩ := hst hc
  obtain ⟨added₂, hu, h₂⟩ := htu ht
  refine ⟨added₂ ++ added₁, by rw [hu, List.append_assoc], fun e he => ?_⟩
  rcases List.mem_append.mp he with he | he
  · exact h₂ e he
  · exact h₁ e he

/-- More may be allowed, and only for the scopes that exist is it needed. -/
theorem mono {wider : ScopeId → String → Prop} (h : s.Adds allowed t)
    (hsub : ∀ i n, i < s.scopes.size → allowed i n → wider i n) : s.Adds wider t := by
  intro i c hc
  obtain ⟨added, ht, hadded⟩ := h hc
  have hi : i < s.scopes.size := (Array.getElem?_eq_some_iff.mp hc).1
  exact ⟨added, ht, fun e he => hsub i e.1 hi (hadded e he)⟩

/-- A definition adds its binding, which has to be allowed. -/
theorem define (s : Store τ) {scope : ScopeId} {n : String} (hn : allowed scope n) (v : Value τ) :
    s.Adds allowed (s.define scope n v) := by
  intro i c hc
  rw [getElem?_define, hc]
  by_cases hi : scope = i
  · subst hi
    exact ⟨[(n, v)], by simp, by simpa using hn⟩
  · exact ⟨[], by simp [hi], by simp⟩

/-- A new scope adds no binding to an old one. -/
theorem add (s : Store τ) (outer : Option ScopeId) : s.Adds allowed (s.add outer).2 := by
  intro i c hc
  obtain ⟨hi, hci⟩ := Array.getElem?_eq_some_iff.mp hc
  refine ⟨[], ?_, by simp⟩
  rw [Store.add, Array.getElem?_push_lt hi, hci, List.nil_append]

/-- What is written only in a new scope is written in none of the old ones. -/
theorem of_add {outer : Option ScopeId}
    (h : (s.add outer).2.Adds (fun i _ => i = s.scopes.size) t) : s.Adds (fun _ _ => False) t := by
  have hadd : s.Adds (fun i _ => i = s.scopes.size) t := (add s outer).trans h
  exact hadd.mono fun i _ hi heq => absurd heq (Nat.ne_of_lt hi)

/-- Where no binding may be added a scope stays as it is. -/
theorem getElem?_eq (h : s.Adds allowed t) {i : ScopeId} (hi : i < s.scopes.size)
    (hno : ∀ n, ¬ allowed i n) : t.scopes[i]? = s.scopes[i]? := by
  have hc : s.scopes[i]? = some s.scopes[i] := Array.getElem?_eq_getElem hi
  obtain ⟨added, ht, hadded⟩ := h hc
  have hnil : added = [] := by
    cases added with
    | nil => rfl
    | cons e added => exact absurd (hadded e List.mem_cons_self) (hno e.1)
  rw [ht, hc, hnil, List.nil_append]

theorem size_le (h : s.Adds allowed t) : s.scopes.size ≤ t.scopes.size := by
  rcases Nat.eq_zero_or_pos s.scopes.size with h0 | hpos
  · omega
  · -- the last scope of `s` is still there in `t`
    have hlast : s.scopes.size - 1 < s.scopes.size := by omega
    obtain ⟨added, ht, -⟩ := h (Array.getElem?_eq_getElem hlast)
    have := (Array.getElem?_eq_some_iff.mp ht).1
    omega

end Store.Adds

/-! ## Evaluations that add bindings -/

/-- Wherever an evaluation ends, with a value, a return or an error, it has added bindings only
where `allowed` permits them. -/
def Eval.Adds (allowed : ScopeId → String → Prop) (m : Eval τ α) : Prop :=
  ∀ ⦃s r t⦄, m s = some (r, t) → s.store.Adds allowed t.store

namespace Eval.Adds

variable {allowed : ScopeId → String → Prop} {m : Eval τ α}

theorem pure (a : α) : (Pure.pure a : Eval τ α).Adds allowed := by
  intro s r t h
  cases h
  exact .refl _

/-- Steps in a row may add what either may. -/
theorem bind {f : α → Eval τ β} (hm : m.Adds allowed) (hf : ∀ a, (f a).Adds allowed) :
    (m >>= f).Adds allowed := by
  intro s r t h
  rcases bind_cases h with ⟨a, u, hms, hfu⟩ | ⟨x, hms, -⟩
  · exact (hm hms).trans (hf a hfu)
  · exact hm hms

/-- Leaving early adds nothing. -/
theorem exit (x : Exit τ) : (Eval.exit x : Eval τ α).Adds allowed := by
  intro s r t h
  cases h
  exact .refl _

theorem tooDeep : (Eval.tooDeep : Eval τ α).Adds allowed := by
  intro s r t h
  cases h

theorem lift (e : Except EvalError α) : (Eval.lift e : Eval τ α).Adds allowed := by
  intro s r t h
  cases h
  exact .refl _

theorem name (scope : ScopeId) (n : String) :
    (Eval.name scope n : Eval τ (Value τ)).Adds allowed := by
  intro s r t h
  unfold Eval.name at h
  split at h
  · cases h
    exact .refl _
  · split at h <;> cases h <;> exact .refl _

theorem record (c : CallEvent) : (Eval.record c : Eval τ Unit).Adds allowed := by
  intro s r t h
  cases h
  exact .refl _

theorem define {scope : ScopeId} {n : String} (hn : allowed scope n) (v : Value τ) :
    (Eval.define scope n v).Adds allowed := by
  intro s r t h
  cases h
  exact .define _ hn v

theorem mono {wider : ScopeId → String → Prop} (h : m.Adds allowed)
    (hsub : ∀ i n, allowed i n → wider i n) : m.Adds wider :=
  fun _ _ _ hm => (h hm).mono fun i n _ => hsub i n

/-- What adds no binding fits under every condition. -/
theorem of_none (h : m.Adds fun _ _ => False) : m.Adds allowed :=
  h.mono fun _ _ hno => hno.elim

end Eval.Adds

/-! ## Trees -/

section Trees

variable {call : Caller τ} {scope : ScopeId} {names : List String}

/-- Bindings of some names in one scope. -/
def writable (scope : ScopeId) (names : List String) (i : ScopeId) (n : String) : Prop :=
  i = scope ∧ n ∈ names

mutual

/-- **An expression writes only what its `let` statements bind**, if calls write nothing. -/
theorem Expr.eval_adds (hcall : ∀ f args, (call f args).Adds fun _ _ => False) :
    ∀ x : Expr τ, x.lets ⊆ names → (x.eval call scope).Adds (writable scope names)
  | .name n, _ => .name scope n
  | .int _, _ => .pure _
  | .text _, _ => .pure _
  | .bool _, _ => .pure _
  | .array items, h => (evalExprs_adds hcall items h).bind fun _ => .pure _
  | .hash pairs, h => (evalPairs_adds hcall pairs [] h).bind fun _ => .pure _
  | .unary op x, h => (x.eval_adds hcall h).bind fun _ => .lift _
  | .binary op x y, h => by
    rw [Expr.lets, List.append_subset] at h
    exact (x.eval_adds hcall h.1).bind fun _ => (y.eval_adds hcall h.2).bind fun _ => .lift _
  | .cond c yes none, h => by
    rw [Expr.lets, List.append_subset] at h
    refine (c.eval_adds hcall h.1).bind fun v => ?_
    split
    · exact evalBlock_adds hcall yes .null h.2
    · exact .pure _
  | .cond c yes (some no), h => by
    rw [Expr.lets, List.append_subset, List.append_subset] at h
    refine (c.eval_adds hcall h.1).bind fun v => ?_
    split
    · exact evalBlock_adds hcall yes .null h.2.1
    · exact evalBlock_adds hcall no .null h.2.2
  | .fn _ _ _, _ => .pure _
  | .call f args, h => by
    rw [Expr.lets, List.append_subset] at h
    exact (f.eval_adds hcall h.1).bind fun v => (evalExprs_adds hcall args h.2).bind fun vs =>
      (hcall v vs).of_none
  | .index x i, h => by
    rw [Expr.lets, List.append_subset] at h
    exact (x.eval_adds hcall h.1).bind fun _ => (i.eval_adds hcall h.2).bind fun _ => .lift _

theorem evalExprs_adds (hcall : ∀ f args, (call f args).Adds fun _ _ => False) :
    ∀ xs : List (Expr τ), letsOfExprs xs ⊆ names →
      (evalExprs call scope xs).Adds (writable scope names)
  | [], _ => .pure _
  | x :: xs, h => by
    rw [letsOfExprs, List.append_subset] at h
    exact (x.eval_adds hcall h.1).bind fun _ => (evalExprs_adds hcall xs h.2).bind fun _ => .pure _

theorem evalPairs_adds (hcall : ∀ f args, (call f args).Adds fun _ _ => False) :
    ∀ (ps : List (Expr τ × Expr τ)) (stored : List (Key × Stored τ)), letsOfPairs ps ⊆ names →
      (evalPairs call scope stored ps).Adds (writable scope names)
  | [], _, _ => .pure _
  | (x, y) :: ps, stored, h => by
    rw [letsOfPairs, List.append_subset, List.append_subset] at h
    exact (x.eval_adds hcall h.1).bind fun _ => (Eval.Adds.lift _).bind fun _ =>
      (y.eval_adds hcall h.2.1).bind fun _ => evalPairs_adds hcall ps _ h.2.2

/-- A block adds what its statements may. -/
theorem evalBlock_adds (hcall : ∀ f args, (call f args).Adds fun _ _ => False) :
    ∀ (b : List (Stmt τ)) (last : Value τ), letsOfBlock b ⊆ names →
      (evalBlock call scope last b).Adds (writable scope names)
  | [], _, _ => .pure _
  | s :: b, _, h => by
    rw [letsOfBlock, List.append_subset] at h
    exact (s.eval_adds hcall h.1).bind fun v => evalBlock_adds hcall b v h.2

/-- A `let` adds its own name in the scope of the statement; nothing else adds a binding by itself.
-/
theorem Stmt.eval_adds (hcall : ∀ f args, (call f args).Adds fun _ _ => False) :
    ∀ s : Stmt τ, s.lets ⊆ names → (s.eval call scope).Adds (writable scope names)
  | .bind n x, h => by
    rw [Stmt.lets, List.cons_subset] at h
    exact (x.eval_adds hcall h.2).bind fun v =>
      (Eval.Adds.define ⟨rfl, h.1⟩ v).bind fun _ => .pure _
  | .ret x, h => (x.eval_adds hcall h).bind fun _ => .exit _
  | .expr x, h => x.eval_adds hcall h

end

end Trees

/-! ## Calls -/

/-- The machine on which the body of a closure starts: the scope made last holds the arguments. -/
def Closure.start (f : Closure τ) (args : List (Value τ)) (s : Machine τ) : Machine τ where
  store := (f.params.zip args).foldl (fun u e => u.define s.store.scopes.size e.1 e.2)
    (s.store.add (some f.scope)).2
  calls := s.calls.push (.closure args.length)

theorem defineAll_eq (scope : ScopeId) (bindings : List (String × Value τ)) (s : Machine τ) :
    defineAll scope bindings s = some (.ok (),
      { s with store := bindings.foldl (fun u e => u.define scope e.1 e.2) s.store }) := by
  induction bindings generalizing s with
  | nil => rfl
  | cons e bindings ih => exact ih { s with store := s.store.define scope e.1 e.2 }

/-- Entering a closure runs its body in a scope of its own, which holds the arguments, and settles
how it ends. -/
theorem Closure.enter_eq (call : Caller τ) (f : Closure τ) (args : List (Value τ))
    (s : Machine τ) :
    f.enter call args s =
      (evalBlock call s.store.scopes.size .null f.body (f.start args s)).map fun (r, t) =>
        ((settle r).mapError .failed, t) := by
  have hdefine := defineAll_eq s.store.scopes.size (f.params.zip args)
    ⟨(s.store.add (some f.scope)).2, s.calls.push (.closure args.length)⟩
  exact Eval.bind_of_ok hdefine

theorem Store.Adds.foldl_define (s : Store τ) (scope : ScopeId)
    (bindings : List (String × Value τ)) :
    s.Adds (fun i _ => i = scope) (bindings.foldl (fun u e => u.define scope e.1 e.2) s) := by
  induction bindings generalizing s with
  | nil => exact .refl s
  | cons e bindings ih => exact (Adds.define s rfl e.2).trans (ih _)

/-- The body of a closure runs in a scope of its own and writes in no other. -/
theorem Closure.enter_adds {call : Caller τ} (hcall : ∀ f args, (call f args).Adds fun _ _ => False)
    (f : Closure τ) (args : List (Value τ)) : (f.enter call args).Adds fun _ _ => False := by
  intro s r t h
  rw [enter_eq] at h
  obtain ⟨⟨r', t'⟩, hbody, hend⟩ := Option.map_eq_some_iff.mp h
  cases hend
  have hargs := Store.Adds.foldl_define (s.store.add (some f.scope)).2 s.store.scopes.size
    (f.params.zip args)
  have hwritten := (evalBlock_adds hcall f.body .null (List.Subset.refl _) hbody).mono
    fun i n _ hw => hw.1
  -- arguments and body write only in the scope that was made for them
  exact (hargs.trans hwritten).of_add

theorem applyWith_adds {enter : Closure τ → List (Value τ) → Eval τ (Value τ)}
    (henter : ∀ f args, (enter f args).Adds fun _ _ => False) (f : Value τ)
    (args : List (Value τ)) : (applyWith enter f args).Adds fun _ _ => False := by
  unfold applyWith
  split
  · split
    · exact henter _ args
    · exact .exit _
  · exact (Eval.Adds.record _).bind fun _ => .lift _
  · exact .exit _

/-- **A call adds no binding to a scope that was there before**, however deep calls nest. -/
theorem apply_adds (depth : Nat) (f : Value τ) (args : List (Value τ)) :
    (apply depth f args).Adds fun _ _ => False := by
  induction depth generalizing f args with
  | zero => exact applyWith_adds (fun _ _ => .tooDeep) f args
  | succ depth ih => exact applyWith_adds (fun g vs => g.enter_adds ih vs) f args

/-! ## The frame of an evaluation -/

/-- Other scopes are as before. So are, in `scope`, the link to the scope around it and the bindings
of all names but `names`. -/
structure Store.WritesOnly (scope : ScopeId) (names : List String) (s t : Store τ) : Prop where
  others : ∀ i, i < s.scopes.size → i ≠ scope → t.scopes[i]? = s.scopes[i]?
  own : ∀ c, s.scopes[scope]? = some c → ∃ d, t.scopes[scope]? = some d ∧ d.outer = c.outer ∧
    ∀ n, n ∉ names → d.bindings.lookup n = c.bindings.lookup n

theorem Store.Adds.writesOnly {scope : ScopeId} {names : List String} {s t : Store τ}
    (h : s.Adds (writable scope names) t) : s.WritesOnly scope names t where
  others i hi hne := h.getElem?_eq hi fun _ hw => hne hw.1
  own c hc := by
    obtain ⟨added, ht, hadded⟩ := h hc
    refine ⟨_, ht, rfl, fun n hn => ?_⟩
    have hnone : added.lookup n = none := by
      rw [List.lookup_eq_none_iff]
      intro e he
      rw [bne_iff_ne]
      rintro rfl
      exact hn (hadded e he).2
    rw [List.lookup_append, hnone, Option.none_or]

/-- What is run adds what the evaluation adds. -/
theorem Eval.Adds.run {allowed : ScopeId → String → Prop} {m : Eval τ (Value τ)}
    (hm : m.Adds allowed) {s t : Machine τ} {r : Except EvalError (Value τ)}
    (h : m.run s = some (r, t)) : s.store.Adds allowed t.store := by
  obtain ⟨⟨r', t'⟩, hend, heq⟩ := Option.map_eq_some_iff.mp h
  cases heq
  exact hm hend

/-- A program adds to its scope what its `let` statements bind, and scopes of calls. -/
theorem Program.run_adds {depth : Nat} {scope : ScopeId} (p : Program τ) {s t : Machine τ}
    {r : Except EvalError (Value τ)} (h : p.run depth scope s = some (r, t)) :
    s.store.Adds (writable scope (letsOfBlock p)) t.store := by
  rw [p.run_eq] at h
  exact (evalBlock_adds (apply_adds depth) p .null (List.Subset.refl _)).run h

/-- **Evaluation writes only where the text says.** Whatever the outcome, a program, block,
statement or expression changes no scope that was there before but the one in which it is evaluated,
and there it binds only the names of its `let` statements outside function literals. A call changes
no scope that was there before. -/
theorem evaluation_writes_only (depth : Nat) (scope : ScopeId) (s t : Machine τ) :
    (∀ (p : Program τ) r, p.run depth scope s = some (r, t) →
        s.store.WritesOnly scope (letsOfBlock p) t.store) ∧
      (∀ (b : Block τ) last r, evalBlock (apply depth) scope last b s = some (r, t) →
        s.store.WritesOnly scope (letsOfBlock b) t.store) ∧
      (∀ (x : Stmt τ) r, x.eval (apply depth) scope s = some (r, t) →
        s.store.WritesOnly scope x.lets t.store) ∧
      (∀ (x : Expr τ) r, x.eval (apply depth) scope s = some (r, t) →
        s.store.WritesOnly scope x.lets t.store) ∧
      ∀ (f : Value τ) args r, f.call depth args s = some (r, t) →
        ∀ i, i < s.store.scopes.size → t.store.scopes[i]? = s.store.scopes[i]? := by
  have hcall : ∀ (f : Value τ) args, (apply depth f args).Adds fun _ _ => False := apply_adds depth
  refine ⟨fun p r h => ?_, fun b last r h => ?_, fun x r h => ?_, fun x r h => ?_, ?_⟩
  · exact (p.run_adds h).writesOnly
  · exact (evalBlock_adds hcall b last (List.Subset.refl _) h).writesOnly
  · exact (x.eval_adds hcall (List.Subset.refl _) h).writesOnly
  · exact (x.eval_adds hcall (List.Subset.refl _) h).writesOnly
  · intro f args r h i hi
    exact ((hcall f args).run h).getElem?_eq hi fun _ hno => hno

/-- Two scopes, one inside the other. -/
def nestedScopes : Machine Unit where
  store := ⟨#[⟨[("x", .int 1)], none⟩, ⟨[("y", .int 2)], some 0⟩]⟩

/-- A program whose function binds a name that the program and the outer scope bind as well. -/
def shadowing : Program Unit :=
  [.bind "f" (.fn () ["n"] [.bind "x" (.name "n"), .expr (.binary .add (.name "x") (.name "y"))]),
    .bind "x" (.call (.name "f") [.int 40]),
    .expr (.cond (.name "x") [.bind "z" (.name "x"), .ret (.name "z")] none)]

/-- The program makes a scope for the call and binds three names. -/
theorem evaluation_writes_only_shadowing :
    ∃ r t, shadowing.run 2 1 nestedScopes = some (r, t) ∧ t.store.scopes.size = 3 ∧
      nestedScopes.store.WritesOnly 1 ["f", "x", "z"] t.store := by
  have hsize : (shadowing.run 2 1 nestedScopes).map (fun e => e.2.store.scopes.size) = some 3 := by
    decide +kernel
  obtain ⟨⟨r, t⟩, hrun, ht⟩ := Option.map_eq_some_iff.mp hsize
  exact ⟨r, t, hrun, ht, (evaluation_writes_only 2 1 nestedScopes t).1 shadowing r hrun⟩

end ClosureLang
