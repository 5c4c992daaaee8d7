import ClosureLang.Proofs.Eval.Frame
import ClosureLang.Proofs.Store.WellFormed

/-!
# Evaluation keeps stores well formed

`Eval.Sound n P m` is that the evaluation `m`, begun on a well-formed store with `n` scopes or more,
leaves a well-formed store with no fewer scopes, and that what it ends with refers only to scopes of
that store. The number `n` stands for what is known before: a scope below `n` exists, and a value
that captures below `n` may be bound or called.

Main statements: `Expr.eval_sound` and its companions for trees, and `apply_sound` for calls.
-/

namespace ClosureLang

variable {τ α β : Type}

/-- The value that is returned, if any, refers to the first `n` scopes. -/
def Exit.CapturesBelow (n : Nat) : Exit τ → Prop
  | .returned v => v.CapturesBelow n
  | .failed _ => True

/-- What an evaluation ended with, on a store with `n` scopes: a result with `P`, or an exit that
refers to scopes of the store. -/
def Outcome (P : Nat → α → Prop) (n : Nat) : Except (Exit τ) α → Prop
  | .ok a => P n a
  | .error x => x.CapturesBelow n

/-- An evaluation that keeps stores well formed. -/
def Eval.Sound (n : Nat) (P : Nat → α → Prop) (m : Eval τ α) : Prop :=
  ∀ ⦃s r t⦄, s.store.WellFormed → n ≤ s.store.scopes.size → m s = some (r, t) →
    t.store.WellFormed ∧ s.store.scopes.size ≤ t.store.scopes.size ∧
      Outcome P t.store.scopes.size r

namespace Eval.Sound

variable {n : Nat} {P : Nat → α → Prop} {m : Eval τ α}

theorem pure {a : α} (ha : ∀ k, n ≤ k → P k a) : (Pure.pure a : Eval τ α).Sound n P := by
  intro s r t hs hn h
  cases h
  exact ⟨hs, Nat.le_refl _, ha _ hn⟩

/-- Steps in a row: the second starts in a store with no fewer scopes, so what it gets is still
below. -/
theorem bind {Q : Nat → β → Prop} {f : α → Eval τ β} (hm : m.Sound n P)
    (hf : ∀ k a, n ≤ k → P k a → (f a).Sound k Q) : (m >>= f).Sound n Q := by
  intro s r t hs hn h
  rcases bind_cases h with ⟨a, u, hms, hfu⟩ | ⟨x, hms, rfl⟩
  · -- the second part may rely on all scopes that the first one leaves
    obtain ⟨hu, hsu, ha⟩ := hm hs hn hms
    obtain ⟨ht, hut, hr⟩ := hf _ a (Nat.le_trans hn hsu) ha hu (Nat.le_refl _) hfu
    exact ⟨ht, Nat.le_trans hsu hut, hr⟩
  · exact hm hs hn hms

theorem exit {x : Exit τ} (hx : x.CapturesBelow n) : (Eval.exit x : Eval τ α).Sound n P := by
  intro s r t hs hn h
  cases h
  refine ⟨hs, Nat.le_refl _, ?_⟩
  cases x with
  | returned v => exact Value.CapturesBelow.mono hx hn
  | failed e => trivial

theorem tooDeep : (Eval.tooDeep : Eval τ α).Sound n P := by
  intro s r t _ _ h
  cases h

theorem lift {e : Except EvalError α} (he : ∀ k a, n ≤ k → e = .ok a → P k a) :
    (Eval.lift e : Eval τ α).Sound n P := by
  intro s r t hs hn h
  cases h
  refine ⟨hs, Nat.le_refl _, ?_⟩
  cases e with
  | ok a => exact he _ a hn rfl
  | error e => trivial

/-- A name gives what a well-formed store binds it to. -/
theorem name (scope : ScopeId) (x : String) :
    (Eval.name scope x : Eval τ (Value τ)).Sound n Value.CapturesBelow := by
  intro s r t hs hn h
  unfold Eval.name at h
  split at h
  · next v hv =>
    cases h
    exact ⟨hs, Nat.le_refl _, hs.capturesBelow_lookup hv⟩
  · split at h
    · cases h
      exact ⟨hs, Nat.le_refl _, .of_nil rfl⟩
    · cases h
      exact ⟨hs, Nat.le_refl _, trivial⟩

theorem record (c : CallEvent) : (Eval.record c : Eval τ Unit).Sound n fun _ _ => True := by
  intro s r t hs hn h
  cases h
  exact ⟨hs, Nat.le_refl _, trivial⟩

/-- A definition stores a value that captures scopes of the store only. -/
theorem define {v : Value τ} (hv : v.CapturesBelow n) (scope : ScopeId) (x : String) :
    (Eval.define scope x v).Sound n fun _ _ => True := by
  intro s r t hs hn h
  cases h
  exact ⟨hs.define (hv.mono hn) scope x, by simp, trivial⟩

end Eval.Sound

/-! ## Trees -/

/-- A caller that keeps stores well formed. -/
def Caller.Sound (call : Caller τ) : Prop :=
  ∀ ⦃n f args⦄, f.CapturesBelow n → (∀ a ∈ args, a.CapturesBelow n) →
    (call f args).Sound n Value.CapturesBelow

section Trees

variable {call : Caller τ} {scope : ScopeId}

mutual

/-- **The evaluation of an expression keeps stores well formed**, if calls do. -/
theorem Expr.eval_sound (hcall : Caller.Sound call) : ∀ (x : Expr τ) {n : Nat}, scope < n →
    (x.eval call scope).Sound n Value.CapturesBelow
  | .name x, n, _ => .name scope x
  | .int _, n, _ => .pure fun _ _ => .of_nil rfl
  | .text _, n, _ => .pure fun _ _ => .of_nil rfl
  | .bool _, n, _ => .pure fun _ _ => .of_nil rfl
  | .array items, n, h => (evalExprs_sound hcall items h).bind fun k vs _ hvs =>
    .pure fun j hj => Value.CapturesBelow.array.mpr fun v hv => (hvs v hv).mono hj
  | .hash pairs, n, h => (evalPairs_sound hcall pairs h (by simp)).bind fun k es _ hes =>
    .pure fun j hj => Value.CapturesBelow.hash.mpr fun e he => (hes e he).mono hj
  | .unary op x, n, h => (x.eval_sound hcall h).bind fun _ _ _ _ =>
    .lift fun _ _ _ hop => (Value.CapturesBelow.hereditary _).unary hop
  | .binary op x y, n, h => (x.eval_sound hcall h).bind fun k _ hk _ =>
    (y.eval_sound hcall (Nat.lt_of_lt_of_le h hk)).bind fun _ _ _ _ =>
      .lift fun _ _ _ hop => (Value.CapturesBelow.hereditary _).binary hop
  | .cond c yes none, n, h => by
    refine (c.eval_sound hcall h).bind fun k v hk _ => ?_
    split
    · exact evalBlock_sound hcall yes (Nat.lt_of_lt_of_le h hk) (.of_nil rfl)
    · exact .pure fun _ _ => .of_nil rfl
  | .cond c yes (some no), n, h => by
    refine (c.eval_sound hcall h).bind fun k v hk _ => ?_
    split
    · exact evalBlock_sound hcall yes (Nat.lt_of_lt_of_le h hk) (.of_nil rfl)
    · exact evalBlock_sound hcall no (Nat.lt_of_lt_of_le h hk) (.of_nil rfl)
  | .fn _ _ _, n, h => .pure fun _ hk => Value.CapturesBelow.closure.mpr (Nat.lt_of_lt_of_le h hk)
  | .call f args, n, h => (f.eval_sound hcall h).bind fun k v hk hv =>
    (evalExprs_sound hcall args (Nat.lt_of_lt_of_le h hk)).bind fun _ _ hj hvs =>
      hcall (hv.mono hj) hvs
  | .index x i, n, h => (x.eval_sound hcall h).bind fun k v hk hv =>
    (i.eval_sound hcall (Nat.lt_of_lt_of_le h hk)).bind fun _ _ hj _ =>
      .lift fun _ _ hl hindex =>
        (Value.CapturesBelow.hereditary _).index (hv.mono (Nat.le_trans hj hl)) hindex

theorem evalExprs_sound (hcall : Caller.Sound call) : ∀ (xs : List (Expr τ)) {n : Nat}, scope < n →
    (evalExprs call scope xs).Sound n fun k vs => ∀ v ∈ vs, v.CapturesBelow k
  | [], n, _ => .pure fun _ _ => by simp
  | x :: xs, n, h => (x.eval_sound hcall h).bind fun k v hk hv =>
    (evalExprs_sound hcall xs (Nat.lt_of_lt_of_le h hk)).bind fun j vs hj hvs =>
      .pure fun l hl => List.forall_mem_cons.mpr
        ⟨hv.mono (Nat.le_trans hj hl), fun w hw => (hvs w hw).mono hl⟩

/-- Entries are inserted one by one, and a hash captures what its entries do. -/
theorem evalPairs_sound (hcall : Caller.Sound call) : ∀ (ps : List (Expr τ × Expr τ)) {n : Nat}
    {stored : List (Key × Stored τ)}, scope < n → (∀ e ∈ entriesOf stored, e.2.CapturesBelow n) →
    (evalPairs call scope stored ps).Sound n fun k es => ∀ e ∈ entriesOf es, e.2.CapturesBelow k
  | [], n, stored, _, hes => .pure fun k hk e he => (hes e he).mono hk
  | (x, y) :: ps, n, stored, h, hes => by
    refine (x.eval_sound hcall h).bind fun k _ hk _ => ?_
    refine (Eval.Sound.lift (P := fun _ _ => True) fun _ _ _ _ => trivial).bind fun j key hj _ => ?_
    have hnj : n ≤ j := Nat.le_trans hk hj
    refine (y.eval_sound hcall (Nat.lt_of_lt_of_le h hnj)).bind fun l v hl hv => ?_
    have hnl : n ≤ l := Nat.le_trans hnj hl
    refine evalPairs_sound hcall ps (Nat.lt_of_lt_of_le h hnl) fun e he => ?_
    rw [entriesOf_insertEntry] at he
    rcases mem_insertEntry he with rfl | hold
    · exact hv
    · exact (hes e hold).mono hnl

/-- The value of a block is that of its last statement, or the one it starts with. -/
theorem evalBlock_sound (hcall : Caller.Sound call) : ∀ (b : List (Stmt τ)) {n : Nat}
    {last : Value τ}, scope < n → last.CapturesBelow n →
    (evalBlock call scope last b).Sound n Value.CapturesBelow
  | [], _, _, _, hlast => .pure fun _ hk => hlast.mono hk
  | s :: b, _, _, h, _ => (s.eval_sound hcall h).bind fun _ _ hk hv =>
    evalBlock_sound hcall b (Nat.lt_of_lt_of_le h hk) hv

theorem Stmt.eval_sound (hcall : Caller.Sound call) : ∀ (s : Stmt τ) {n : Nat}, scope < n →
    (s.eval call scope).Sound n Value.CapturesBelow
  | .bind x e, _, h => (e.eval_sound hcall h).bind fun _ _ _ hv =>
    (Eval.Sound.define hv scope x).bind fun _ _ hj _ => .pure fun _ hl =>
      hv.mono (Nat.le_trans hj hl)
  | .ret e, _, h => (e.eval_sound hcall h).bind fun _ _ _ hv => .exit hv
  | .expr e, _, h => e.eval_sound hcall h

end

end Trees

/-! ## Calls -/

/-- Binding arguments one after the other keeps a store well-formed. -/
theorem Store.WellFormed.foldl_define {s : Store τ} (hs : s.WellFormed) (scope : ScopeId)
    {bindings : List (String × Value τ)}
    (hbindings : ∀ e ∈ bindings, e.2.CapturesBelow s.scopes.size) :
    (bindings.foldl (fun u e => u.define scope e.1 e.2) s).WellFormed ∧
      (bindings.foldl (fun u e => u.define scope e.1 e.2) s).scopes.size = s.scopes.size := by
  induction bindings generalizing s with
  | nil => exact ⟨hs, rfl⟩
  | cons e bindings ih =>
    rw [List.forall_mem_cons] at hbindings
    obtain ⟨hwf, hsize⟩ := ih (hs.define hbindings.1 scope e.1) (by simpa using hbindings.2)
    exact ⟨hwf, by simpa using hsize⟩

/-- The store on which the body of a closure starts is well formed and has one scope more. -/
theorem Closure.start_wellFormed {f : Closure τ} {args : List (Value τ)} {s : Machine τ}
    (hs : s.store.WellFormed) (hf : f.scope < s.store.scopes.size)
    (hargs : ∀ a ∈ args, a.CapturesBelow s.store.scopes.size) :
    (f.start args s).store.WellFormed ∧
      (f.start args s).store.scopes.size = s.store.scopes.size + 1 := by
  have hadd : (s.store.add (some f.scope)).2.WellFormed := hs.add fun o ho => by
    cases ho
    exact hf
  have hzip : ∀ e ∈ f.params.zip args,
      e.2.CapturesBelow (s.store.add (some f.scope)).2.scopes.size := by
    intro e he
    exact (hargs e.2 (List.of_mem_zip he).2).mono (by simp)
  obtain ⟨hwf, hsize⟩ := hadd.foldl_define s.store.scopes.size hzip
  exact ⟨hwf, hsize.trans (Store.size_add _ _)⟩

/-- Where a whole body ends, a value that was returned counts as its result. -/
theorem outcome_settle {n : Nat} {r : Except (Exit τ) (Value τ)}
    (h : Outcome Value.CapturesBelow n r) :
    Outcome Value.CapturesBelow n ((settle r).mapError (Exit.failed (τ := τ))) := by
  rcases r with (v | e) | v
  · exact h
  · trivial
  · exact h

theorem Closure.enter_sound {call : Caller τ} (hcall : Caller.Sound call) {n : Nat}
    {f : Closure τ} {args : List (Value τ)} (hf : f.scope < n)
    (hargs : ∀ a ∈ args, a.CapturesBelow n) : (f.enter call args).Sound n Value.CapturesBelow := by
  intro s r t hs hn h
  rw [enter_eq] at h
  obtain ⟨⟨r', t'⟩, hbody, hend⟩ := Option.map_eq_some_iff.mp h
  cases hend
  obtain ⟨hstart, hsize⟩ := start_wellFormed hs (Nat.lt_of_lt_of_le hf hn)
    fun a ha => (hargs a ha).mono hn
  -- the scope of the body is the one made last
  obtain ⟨ht, hle, hr⟩ := evalBlock_sound hcall f.body (Nat.lt_succ_self _) (.of_nil rfl) hstart
    (Nat.le_of_eq hsize.symm) hbody
  exact ⟨ht, by omega, outcome_settle hr⟩

/-- A builtin captures nothing, so only entering a closure needs an argument. -/
theorem applyWith_sound {enter : Closure τ → List (Value τ) → Eval τ (Value τ)}
    (henter : ∀ ⦃n f args⦄, f.scope < n → (∀ a ∈ args, a.CapturesBelow n) →
      (enter f args).Sound n Value.CapturesBelow) : Caller.Sound (applyWith enter) := by
  intro n f args hf hargs
  unfold applyWith
  split
  · split
    · exact henter (Value.CapturesBelow.closure.mp hf) hargs
    · exact .exit trivial
  · exact (Eval.Sound.record _).bind fun _ _ hk _ => .lift fun _ _ hj heval =>
      (Value.CapturesBelow.hereditary _).builtin
        (fun a ha => (hargs a ha).mono (Nat.le_trans hk hj)) heval
  · exact .exit trivial

/-- **Calls keep stores well formed**, however deep they nest. -/
theorem apply_sound (depth : Nat) : Caller.Sound (apply depth : Caller τ) := by
  induction depth with
  | zero => exact applyWith_sound fun _ _ _ _ _ => .tooDeep
  | succ depth ih => exact applyWith_sound fun _ _ _ hf hargs => Closure.enter_sound ih hf hargs

/-- A program or a call as seen from outside. -/
theorem Eval.Sound.run {n : Nat} {m : Eval τ (Value τ)} (hm : m.Sound n Value.CapturesBelow)
    {s t : Machine τ} {r : Except EvalError (Value τ)} (hs : s.store.WellFormed)
    (hn : n ≤ s.store.scopes.size) (h : m.run s = some (r, t)) :
    t.store.WellFormed ∧ ∀ v, r = .ok v → v.CapturesBelow t.store.scopes.size := by
  obtain ⟨⟨r', t'⟩, hend, heq⟩ := Option.map_eq_some_iff.mp h
  cases heq
  obtain ⟨ht, -, hr⟩ := hm hs hn hend
  refine ⟨ht, fun v hv => ?_⟩
  have hsettled := outcome_settle hr
  rw [hv] at hsettled
  exact hsettled

end ClosureLang
