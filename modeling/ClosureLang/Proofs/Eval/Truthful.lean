import ClosureLang.Proofs.Eval.Frame
import ClosureLang.Proofs.Store.Bindings
import ClosureLang.Proofs.Tree.Names
import Mathlib.Data.List.Basic

/-!
# Errors are truthful

An error names what was found: types, an operator, numbers of arguments, a builtin or a name. It is
truthful if that is a reason to fail (`EvalError.Truthful`). Where an error arises the operands are
at hand, so each operation is truthful by itself.

The exception is an unknown name, which has to occur somewhere as a name that is looked up. Where it
occurs depends on the whole run: functions are made and bound, taken out of arrays and called, and
what they look up stands in their bodies. So a run keeps that the functions in the store and in all
values that it passes on look up only names with some property. It begins with the names that occur
in the program, in the store and in the arguments.

`Eval.Truthful` says this for any condition on values that evaluations pass on (`Value.PassedOn`), so
that one induction over trees and calls also shows what else runs keep of values.
-/

namespace ClosureLang

variable {τ α β : Type} {N : String → Prop} {V : Value τ → Prop}

/-! ## What errors say -/

/-- What an error says is a reason to fail. The name of an error about a name has `N`. -/
def EvalError.Truthful (N : String → Prop) : EvalError → Prop
  | unknownName n => (∀ f : Builtin, f.name ≠ n) ∧ N n
  | typeMismatch l op r => l ≠ r ∧ (op ∈ [BinaryOp.equal, .notEqual] →
      (l, r) ∉ [(ValueType.integer, ValueType.boolean), (.boolean, .integer)])
  | unknownBinary l op r => l = r ∧ l ≠ .integer ∧
      (l = .string → op ∉ [BinaryOp.add, .equal, .notEqual]) ∧
      (l = .boolean → op ∉ [BinaryOp.equal, .notEqual])
  | unknownUnary op t => op = .negate ∧ t ≠ .integer
  | divisionByZero _ => True
  | argumentCount wanted found => found ≠ wanted
  | notAFunction t => t ∉ [ValueType.function, .builtin]
  | noIndex t => t ≠ .hash
  | badKey t => t ∉ [ValueType.integer, .boolean, .string]
  | unsupported f t => f = .len ∧ t ∉ [ValueType.string, .array]
  | arrayWanted f t => f ∈ [Builtin.first, .last, .rest, .push] ∧ t ≠ .array

/-! ### Operators -/

/-- The type of a value tells its form, for those types on which operators are defined. -/
theorem Value.eq_int {v : Value τ} (h : v.type = .integer) : ∃ n, v = .int n := by
  cases v <;> first | exact ⟨_, rfl⟩ | cases h

theorem Value.eq_bool {v : Value τ} (h : v.type = .boolean) : ∃ b, v = .bool b := by
  cases v <;> first | exact ⟨_, rfl⟩ | cases h

theorem Value.eq_text {v : Value τ} (h : v.type = .string) : ∃ s, v = .text s := by
  cases v <;> first | exact ⟨_, rfl⟩ | cases h

/-- The only unary operator that fails is the minus, on what is no integer. -/
theorem UnaryOp.truthful_eval {op : UnaryOp} {v : Value τ} {e : EvalError}
    (h : op.eval v = .error e) : e.Truthful N := by
  unfold UnaryOp.eval at h
  split at h
  · cases h
  · cases h
  · next hint =>
    cases h
    refine ⟨rfl, fun ht => ?_⟩
    obtain ⟨n, rfl⟩ := Value.eq_int ht
    exact hint n rfl

/-- On integers only a division fails. -/
theorem BinaryOp.truthful_evalInt {op : BinaryOp} {a b : Int64} {e : EvalError}
    (h : (op.evalInt a b : Except EvalError (Value τ)) = .error e) : e.Truthful N := by
  unfold BinaryOp.evalInt at h
  split at h
  case h_4 =>
    split at h
    · cases h
      trivial
    · cases h
  all_goals cases h

theorem BinaryOp.truthful_evalText {op : BinaryOp} {s t : String} {e : EvalError}
    (h : (op.evalText s t : Except EvalError (Value τ)) = .error e) : e.Truthful N := by
  cases op <;> cases h <;> exact ⟨rfl, by decide, by decide, by decide⟩

theorem BinaryOp.truthful_evalBool {op : BinaryOp} {a b : Bool} {e : EvalError}
    (h : (op.evalBool a b : Except EvalError (Value τ)) = .error e) : e.Truthful N := by
  cases op <;> cases h <;> exact ⟨rfl, by decide, by decide, by decide⟩

/-- Operators between two values fail because the types differ and cannot be compared, or because
the type that both have does not have the operator. -/
theorem BinaryOp.truthful_eval {op : BinaryOp} {v w : Value τ} {e : EvalError}
    (h : op.eval v w = .error e) : e.Truthful N := by
  unfold BinaryOp.eval at h
  split at h
  · exact truthful_evalInt h
  · exact truthful_evalText h
  · exact truthful_evalBool h
  · cases op <;> cases h <;> exact ⟨by decide, by decide⟩
  · cases op <;> cases h <;> exact ⟨by decide, by decide⟩
  · next hint htext hbool hintBool hboolInt =>
    cases h
    unfold BinaryOp.mismatch
    split
    · next hsame =>
      refine ⟨hsame, fun hv => ?_, fun hv => ?_, fun hv => ?_⟩
      · obtain ⟨a, rfl⟩ := Value.eq_int hv
        obtain ⟨b, rfl⟩ := Value.eq_int (hsame.symm.trans hv)
        exact (hint a b rfl rfl).elim
      · obtain ⟨a, rfl⟩ := Value.eq_text hv
        obtain ⟨b, rfl⟩ := Value.eq_text (hsame.symm.trans hv)
        exact (htext a b rfl rfl).elim
      · obtain ⟨a, rfl⟩ := Value.eq_bool hv
        obtain ⟨b, rfl⟩ := Value.eq_bool (hsame.symm.trans hv)
        exact (hbool a b rfl rfl).elim
    · next hne =>
      refine ⟨hne, fun _ htypes => ?_⟩
      simp only [List.mem_cons, Prod.mk.injEq, List.not_mem_nil, or_false] at htypes
      rcases htypes with ⟨hv, hw⟩ | ⟨hv, hw⟩
      · obtain ⟨a, rfl⟩ := Value.eq_int hv
        obtain ⟨b, rfl⟩ := Value.eq_bool hw
        exact hintBool a b rfl rfl
      · obtain ⟨a, rfl⟩ := Value.eq_bool hv
        obtain ⟨b, rfl⟩ := Value.eq_int hw
        exact hboolInt a b rfl rfl

/-! ### Hashes, arrays and builtins -/

theorem Value.truthful_key {v : Value τ} {e : EvalError} (h : v.key = .error e) :
    e.Truthful N := by
  unfold Value.key at h
  split at h
  · cases h
  · next hkey =>
    cases h
    show v.type ∉ [ValueType.integer, .boolean, .string]
    cases v with
    | int _ | bool _ | text _ => cases hkey
    | _ => simp [Value.type]

/-- An index on a hash fails with its key, and any other one that fails is on what is no hash. -/
theorem Value.truthful_index {v w : Value τ} {e : EvalError} (h : v.index w = .error e) :
    e.Truthful N := by
  unfold Value.index at h
  split at h
  · cases h
  · cases hk : w.key with
    | error e' =>
      rw [hk] at h
      cases h
      exact Value.truthful_key hk
    | ok k =>
      rw [hk] at h
      cases h
  · next hhash _ =>
    cases h
    show v.type ≠ .hash
    cases v with
    | hash entries => exact (hhash entries rfl).elim
    | _ => simp [Value.type]

/-- A name under which no builtin is found is the name of none. -/
theorem Builtin.name_ne {n : String} (h : ofName? n = none) (f : Builtin) : f.name ≠ n := by
  have hf : f ∈ Builtin.all := by cases f <;> decide
  intro hn
  exact List.find?_eq_none.mp h f hf (beq_iff_eq.mpr hn)

theorem Builtin.arity_pos (f : Builtin) : 0 < f.arity := by
  cases f <;> decide

/-- A builtin fails on a wrong number of arguments, or on an argument that it is not for. -/
theorem Builtin.truthful_eval {f : Builtin} {args : List (Value τ)} {e : EvalError}
    (h : f.eval args = .error e) : e.Truthful N := by
  unfold Builtin.eval at h
  split at h
  · next hcount =>
    split at h
    · cases h
    · cases h
    · next v _ harray htext =>
      cases h
      refine ⟨rfl, ?_⟩
      cases v with
      | array items => exact (harray items rfl).elim
      | text t => exact (htext t rfl).elim
      | _ => simp [Value.type]
    · next v _ harray _ hlen =>
      cases h
      refine ⟨?_, ?_⟩
      · cases f with
        | len => exact (hlen rfl).elim
        | _ => decide
      · cases v with
        | array items => exact (harray items rfl).elim
        | _ => simp [Value.type]
    · -- no builtin takes no arguments
      exact absurd hcount (Nat.ne_of_lt f.arity_pos)
  · next hcount =>
    cases h
    exact hcount

/-! ## Evaluations that fail truthfully -/

/-- A function looks up only names with `N`. -/
def Closure.LooksUpOnly (N : String → Prop) (f : Closure τ) : Prop :=
  ∀ n ∈ lookupsOfBlock f.body, N n

/-- A condition on values that evaluations pass on. It goes down into arrays and hashes, is met by a
hash after an entry was put in if it was met before, and is met by the functions that look up only
names with `N`. -/
structure Value.PassedOn (N : String → Prop) (V : Value τ → Prop) : Prop
    extends Value.Hereditary V where
  ofBuiltin : ∀ f : Builtin, V (.builtin f)
  ofClosure : ∀ {f : Closure τ}, V (.closure f) ↔ f.LooksUpOnly N
  emptyHash : V (.hash [])
  insert : ∀ (k : Key) {v : Value τ} {entries : List (Key × Value τ)}, V v → V (.hash entries) →
    V (.hash (insertEntry k v entries))

/-- What statements stop with: a value that meets the condition, or a truthful error. -/
def Exit.Truthful (N : String → Prop) (V : Value τ → Prop) : Exit τ → Prop
  | .returned v => V v
  | .failed e => e.Truthful N

/-- What an evaluation ends with: a result with `P`, or a truthful exit. -/
def EndsTruthfully (N : String → Prop) (V : Value τ → Prop) (P : α → Prop) :
    Except (Exit τ) α → Prop
  | .ok a => P a
  | .error x => x.Truthful N V

/-- An evaluation that fails truthfully, on a store whose values meet a condition, and leaves such a
store. -/
def Eval.Truthful (N : String → Prop) (V : Value τ → Prop) (P : α → Prop) (m : Eval τ α) : Prop :=
  ∀ ⦃s r t⦄, s.store.AllValues V → m s = some (r, t) →
    t.store.AllValues V ∧ EndsTruthfully N V P r

namespace Eval.Truthful

variable {P : α → Prop} {m : Eval τ α}

theorem pure {a : α} (ha : P a) : (Pure.pure a : Eval τ α).Truthful N V P := by
  intro s r t hs h
  cases h
  exact ⟨hs, ha⟩

/-- One evaluation after another, where the second may use what the first gives. -/
theorem bind {Q : β → Prop} {f : α → Eval τ β} (hm : m.Truthful N V P)
    (hf : ∀ a, P a → (f a).Truthful N V Q) : (m >>= f).Truthful N V Q := by
  intro s r t hs h
  rcases bind_cases h with ⟨a, u, hms, hfu⟩ | ⟨x, hms, rfl⟩
  · obtain ⟨hu, ha⟩ := hm hs hms
    exact hf a ha hu hfu
  · exact hm hs hms

theorem exit {x : Exit τ} (hx : x.Truthful N V) : (Eval.exit x : Eval τ α).Truthful N V P := by
  intro s r t hs h
  cases h
  exact ⟨hs, hx⟩

theorem tooDeep : (Eval.tooDeep : Eval τ α).Truthful N V P := by
  intro s r t _ h
  cases h

/-- An operation on values changes no store, so it is enough to know how it ends. -/
theorem lift {e : Except EvalError α} (hok : ∀ a, e = .ok a → P a)
    (herror : ∀ x, e = .error x → x.Truthful N) : (Eval.lift e : Eval τ α).Truthful N V P := by
  intro s r t hs h
  cases h
  refine ⟨hs, ?_⟩
  cases e with
  | ok a => exact hok a rfl
  | error x => exact herror x rfl

/-- A name that is not found is no builtin. -/
theorem name (hV : Value.PassedOn N V) (scope : ScopeId) {n : String} (hn : N n) :
    (Eval.name scope n : Eval τ (Value τ)).Truthful N V V := by
  intro s r t hs h
  unfold Eval.name at h
  split at h
  · next v hv =>
    cases h
    exact ⟨hs, hs.lookup hv⟩
  · split at h
    · cases h
      exact ⟨hs, hV.ofBuiltin _⟩
    · next hbuiltin =>
      cases h
      exact ⟨hs, Builtin.name_ne hbuiltin, hn⟩

theorem record (c : CallEvent) : (Eval.record c : Eval τ Unit).Truthful N V fun _ => True := by
  intro s r t hs h
  cases h
  exact ⟨hs, trivial⟩

theorem define {v : Value τ} (hv : V v) (scope : ScopeId) (n : String) :
    (Eval.define scope n v).Truthful N V fun _ => True := by
  intro s r t hs h
  cases h
  exact ⟨hs.define hv scope n, trivial⟩

end Eval.Truthful

/-! ### Trees -/

/-- A caller that fails truthfully. -/
def Caller.Truthful (N : String → Prop) (V : Value τ → Prop) (call : Caller τ) : Prop :=
  ∀ ⦃f args⦄, V f → (∀ a ∈ args, V a) → (call f args).Truthful N V V

section Trees

variable {call : Caller τ} {scope : ScopeId}

mutual

/-- **An expression fails truthfully**, if calls do. -/
theorem Expr.eval_truthful (hV : Value.PassedOn N V) (hcall : Caller.Truthful N V call) :
    ∀ x : Expr τ, (∀ n ∈ x.lookups, N n) → (x.eval call scope).Truthful N V V
  | .name n, h => .name hV scope (h n (List.mem_singleton.mpr rfl))
  | .int n, _ => .pure (hV.key (.int n))
  | .text s, _ => .pure (hV.key (.text s))
  | .bool b, _ => .pure (hV.key (.bool b))
  | .array items, h => (evalExprs_truthful hV hcall items h).bind fun _ hvs =>
    .pure (hV.array.mpr hvs)
  | .hash pairs, h => by
    have hempty : V (.hash (entriesOf [])) := hV.emptyHash
    exact (evalPairs_truthful hV hcall pairs h hempty).bind fun _ hes => .pure hes
  | .unary _ x, h => (x.eval_truthful hV hcall h).bind fun _ _ =>
    .lift (fun _ hw => hV.unary hw) fun _ => UnaryOp.truthful_eval
  | .binary _ x y, h => by
    rw [Expr.lookups, List.forall_mem_append] at h
    exact (x.eval_truthful hV hcall h.1).bind fun _ _ =>
      (y.eval_truthful hV hcall h.2).bind fun _ _ =>
        .lift (fun _ hu => hV.binary hu) fun _ => BinaryOp.truthful_eval
  | .cond c yes none, h => by
    rw [Expr.lookups, List.forall_mem_append] at h
    refine (c.eval_truthful hV hcall h.1).bind fun v _ => ?_
    split
    · exact evalBlock_truthful hV hcall yes h.2 hV.null
    · exact .pure hV.null
  | .cond c yes (some no), h => by
    rw [Expr.lookups, List.forall_mem_append, List.forall_mem_append] at h
    refine (c.eval_truthful hV hcall h.1).bind fun v _ => ?_
    split
    · exact evalBlock_truthful hV hcall yes h.2.1 hV.null
    · exact evalBlock_truthful hV hcall no h.2.2 hV.null
  -- what the body looks up is a matter of the calls, but the literal answers for it
  | .fn _ _ _, h => .pure (hV.ofClosure.mpr h)
  | .call f args, h => by
    rw [Expr.lookups, List.forall_mem_append] at h
    exact (f.eval_truthful hV hcall h.1).bind fun _ hv =>
      (evalExprs_truthful hV hcall args h.2).bind fun _ hvs => hcall hv hvs
  | .index x i, h => by
    rw [Expr.lookups, List.forall_mem_append] at h
    exact (x.eval_truthful hV hcall h.1).bind fun _ hv =>
      (i.eval_truthful hV hcall h.2).bind fun _ _ =>
        .lift (fun _ hu => hV.index hv hu) fun _ => Value.truthful_index

/-- Each of the values meets the condition, so an array of them does. -/
theorem evalExprs_truthful (hV : Value.PassedOn N V) (hcall : Caller.Truthful N V call) :
    ∀ xs : List (Expr τ), (∀ n ∈ lookupsOfExprs xs, N n) →
      (evalExprs call scope xs).Truthful N V fun vs => ∀ v ∈ vs, V v
  | [], _ => .pure (by simp)
  | x :: xs, h => by
    rw [lookupsOfExprs, List.forall_mem_append] at h
    exact (x.eval_truthful hV hcall h.1).bind fun _ hv =>
      (evalExprs_truthful hV hcall xs h.2).bind fun _ hvs =>
        .pure (List.forall_mem_cons.mpr ⟨hv, hvs⟩)

/-- The hash for which pairs are stored meets the condition all along. -/
theorem evalPairs_truthful (hV : Value.PassedOn N V) (hcall : Caller.Truthful N V call) :
    ∀ (ps : List (Expr τ × Expr τ)) {stored : List (Key × Stored τ)},
      (∀ n ∈ lookupsOfPairs ps, N n) → V (.hash (entriesOf stored)) →
      (evalPairs call scope stored ps).Truthful N V fun es => V (.hash (entriesOf es))
  | [], _, _, hes => .pure hes
  | (x, y) :: ps, _, h, hes => by
    rw [lookupsOfPairs, List.forall_mem_append, List.forall_mem_append] at h
    refine (x.eval_truthful hV hcall h.1).bind fun object _ => ?_
    have hkey : (Eval.lift object.key : Eval τ Key).Truthful N V fun _ => True :=
      .lift (fun _ _ => trivial) fun _ => Value.truthful_key
    refine hkey.bind fun k _ => (y.eval_truthful hV hcall h.2.1).bind fun v hv => ?_
    refine evalPairs_truthful hV hcall ps h.2.2 ?_
    rw [entriesOf_insertEntry]
    exact hV.insert k hv hes

theorem evalBlock_truthful (hV : Value.PassedOn N V) (hcall : Caller.Truthful N V call) :
    ∀ (b : List (Stmt τ)) {last : Value τ}, (∀ n ∈ lookupsOfBlock b, N n) → V last →
      (evalBlock call scope last b).Truthful N V V
  | [], _, _, hlast => .pure hlast
  | s :: b, _, h, _ => by
    rw [lookupsOfBlock, List.forall_mem_append] at h
    exact (s.eval_truthful hV hcall h.1).bind fun _ hv => evalBlock_truthful hV hcall b h.2 hv

theorem Stmt.eval_truthful (hV : Value.PassedOn N V) (hcall : Caller.Truthful N V call) :
    ∀ s : Stmt τ, (∀ n ∈ s.lookups, N n) → (s.eval call scope).Truthful N V V
  | .bind n x, h => (x.eval_truthful hV hcall h).bind fun _ hv =>
    (Eval.Truthful.define hv scope n).bind fun _ _ => .pure hv
  | .ret x, h => (x.eval_truthful hV hcall h).bind fun _ hv => .exit hv
  | .expr x, h => x.eval_truthful hV hcall h

end

end Trees

/-! ### Calls -/

/-- The body of a closure may look up what the closure looks up. A value that it returns counts as
its result, and an error remains. -/
theorem Closure.enter_truthful (hV : Value.PassedOn N V) {call : Caller τ}
    (hcall : Caller.Truthful N V call) {f : Closure τ} {args : List (Value τ)}
    (hf : f.LooksUpOnly N) (hargs : ∀ a ∈ args, V a) : (f.enter call args).Truthful N V V := by
  intro s r t hs h
  rw [enter_eq] at h
  obtain ⟨⟨r', t'⟩, hbody, hend⟩ := Option.map_eq_some_iff.mp h
  cases hend
  have hstart : (f.start args s).store.AllValues V :=
    (hs.add _).foldl_define _ fun e he => hargs e.2 (List.of_mem_zip he).2
  obtain ⟨ht, hr⟩ := evalBlock_truthful hV hcall f.body hf hV.null hstart hbody
  refine ⟨ht, ?_⟩
  rcases r' with (v | e) | v <;> exact hr

/-- What is called is a function with as many parameters as there are arguments, a builtin, or a
reason to fail. -/
theorem applyWith_truthful (hV : Value.PassedOn N V)
    {enter : Closure τ → List (Value τ) → Eval τ (Value τ)}
    (henter : ∀ ⦃f args⦄, f.LooksUpOnly N → (∀ a ∈ args, V a) → (enter f args).Truthful N V V) :
    Caller.Truthful N V (applyWith enter) := by
  intro f args hf hargs
  unfold applyWith
  split
  · split
    · exact henter (hV.ofClosure.mp hf) hargs
    · next hcount => exact .exit (Ne.symm hcount)
  · exact (Eval.Truthful.record _).bind fun _ _ =>
      .lift (fun _ hv => hV.builtin hargs hv) fun _ => Builtin.truthful_eval
  · next hclosure hbuiltin =>
    refine .exit ?_
    show f.type ∉ [ValueType.function, .builtin]
    cases f with
    | closure g => exact (hclosure g rfl).elim
    | builtin g => exact (hbuiltin g rfl).elim
    | _ => simp [Value.type]

/-- **Calls fail truthfully**, however deep they nest. -/
theorem apply_truthful (hV : Value.PassedOn N V) (depth : Nat) :
    Caller.Truthful N V (apply depth : Caller τ) := by
  induction depth with
  | zero => exact applyWith_truthful hV fun _ _ _ _ => .tooDeep
  | succ depth ih =>
    exact applyWith_truthful hV fun _ _ hf hargs => Closure.enter_truthful hV ih hf hargs

/-! ## Programs and calls -/

section Runs

variable {depth : Nat} {s t : Machine τ} {r : Except EvalError (Value τ)}

/-- An evaluation as seen from outside. -/
theorem Eval.Truthful.run {m : Eval τ (Value τ)} (hm : m.Truthful N V V)
    (hs : s.store.AllValues V) (h : m.run s = some (r, t)) :
    t.store.AllValues V ∧ (∀ v, r = .ok v → V v) ∧ ∀ e, r = .error e → e.Truthful N := by
  obtain ⟨⟨r', u⟩, hend, heq⟩ := Option.map_eq_some_iff.mp h
  obtain ⟨ht, hr⟩ := hm hs hend
  rcases r' with (v | x) | v <;> cases heq
  · exact ⟨ht, fun w hw => Except.ok.inj hw ▸ hr, by simp [settle]⟩
  · exact ⟨ht, by simp [settle], fun e he => Except.error.inj he ▸ hr⟩
  · exact ⟨ht, fun w hw => Except.ok.inj hw ▸ hr, by simp [settle]⟩

/-- What a program keeps of the values on a machine, and how it fails. -/
theorem Program.run_truthful (hV : Value.PassedOn N V) {p : Program τ} {scope : ScopeId}
    (hp : ∀ n ∈ lookupsOfBlock p, N n) (hs : s.store.AllValues V)
    (h : p.run depth scope s = some (r, t)) :
    t.store.AllValues V ∧ (∀ v, r = .ok v → V v) ∧ ∀ e, r = .error e → e.Truthful N := by
  rw [p.run_eq] at h
  exact (evalBlock_truthful hV (apply_truthful hV depth) p hp hV.null).run hs h

/-- What a call keeps of the values on a machine, and how it fails. -/
theorem Value.call_truthful (hV : Value.PassedOn N V) {f : Value τ} {args : List (Value τ)}
    (hf : V f) (hargs : ∀ a ∈ args, V a) (hs : s.store.AllValues V)
    (h : f.call depth args s = some (r, t)) :
    t.store.AllValues V ∧ (∀ v, r = .ok v → V v) ∧ ∀ e, r = .error e → e.Truthful N :=
  (apply_truthful hV depth hf hargs).run hs h

end Runs

/-- All functions in a value look up only names with `N`. -/
abbrev Value.LooksUpOnly (N : String → Prop) (v : Value τ) : Prop :=
  v.AllFunctions (Closure.LooksUpOnly N)

/-- What the functions in a value look up is passed on. -/
theorem Value.LooksUpOnly.passedOn (N : String → Prop) :
    Value.PassedOn N (Value.LooksUpOnly (τ := τ) N) where
  toHereditary := Value.AllFunctions.hereditary _
  ofBuiltin := fun _ => .of_nil rfl
  ofClosure := Value.AllFunctions.closure
  emptyHash := .of_nil rfl
  insert := fun k v entries hv hentries => by
    refine Value.AllFunctions.hash.mpr fun e he => ?_
    rcases mem_insertEntry he with rfl | hold
    · exact hv
    · exact Value.AllFunctions.hash.mp hentries e hold

/-- A function in a value looks up a name. -/
def Value.LooksUp (v : Value τ) (n : String) : Prop := ∃ f ∈ v.closures, n ∈ lookupsOfBlock f.body

/-- A function that is bound in some scope, itself or inside a value, looks up a name. -/
def Store.LooksUp (s : Store τ) (n : String) : Prop :=
  ∃ i m v, s.binding i m = some v ∧ v.LooksUp n

/-- The functions in a store look up only what is looked up there. -/
theorem Store.LooksUp.allValues {s : Store τ} (hs : ∀ n, s.LooksUp n → N n) :
    s.AllValues (Value.LooksUpOnly N) :=
  fun i m v hv f hf n hn => hs n ⟨i, m, v, hv, f, hf, hn⟩

/-- **Every error is truthful.** Whatever the machine holds and whatever is run on it, the error
with which a program or a call ends gives a reason to fail. An unknown name is one that is looked up
in the program, by a function in the store, or by a function in what is called or its arguments. -/
theorem error_truthful (depth : Nat) (s t : Machine τ) (e : EvalError) :
    (∀ (p : Program τ) (scope : ScopeId), p.run depth scope s = some (.error e, t) →
      e.Truthful fun n => n ∈ lookupsOfBlock p ∨ s.store.LooksUp n) ∧
    ∀ (f : Value τ) (args : List (Value τ)), f.call depth args s = some (.error e, t) →
      e.Truthful fun n => s.store.LooksUp n ∨ ∃ v ∈ f :: args, v.LooksUp n := by
  constructor
  · intro p scope h
    have hstore := Store.LooksUp.allValues (s := s.store)
      (N := fun n => n ∈ lookupsOfBlock p ∨ s.store.LooksUp n) fun n hn => Or.inr hn
    exact (Program.run_truthful (Value.LooksUpOnly.passedOn _) (fun n hn => Or.inl hn) hstore h).2.2
      e rfl
  · intro f args h
    have hstore := Store.LooksUp.allValues (s := s.store)
      (N := fun n => s.store.LooksUp n ∨ ∃ v ∈ f :: args, v.LooksUp n) fun n hn => Or.inl hn
    have hheld : ∀ v ∈ f :: args, v.LooksUpOnly fun n =>
        s.store.LooksUp n ∨ ∃ v ∈ f :: args, v.LooksUp n :=
      fun v hv g hg n hn => Or.inr ⟨v, hv, g, hg, hn⟩
    rw [List.forall_mem_cons] at hheld
    exact (Value.call_truthful (Value.LooksUpOnly.passedOn _) hheld.1 hheld.2 hstore h).2.2 e rfl

/-- Takes a function out of an array and calls it with another one that looks up `lost`. -/
def lostProgram : Program Unit :=
  [.bind "fs" (.array [.fn () ["g"] [.expr (.call (.name "g") [.int 1])]]),
    .expr (.call (.index (.name "fs") (.int 0)) [.name "finder"])]

/-- A machine on which a function that looks up `lost` is bound. -/
def lostMachine : Machine Unit where
  store := (Store.empty.add none).2.define 0 "finder"
    (.closure ⟨["x"], [.expr (.binary .add (.name "x") (.name "lost"))], (), 0⟩)

/-- The name is looked up neither in the program nor in a function that it makes, but in one that is
bound on the machine. -/
theorem error_truthful_lost : ∃ t,
    lostProgram.run 2 0 lostMachine = some (.error (.unknownName "lost"), t) ∧
      "lost" ∉ lookupsOfBlock lostProgram ∧
      (EvalError.unknownName "lost").Truthful fun n =>
        n ∈ lookupsOfBlock lostProgram ∨ lostMachine.store.LooksUp n := by
  have hrun : (lostProgram.run 2 0 lostMachine).map (fun e => e.1.map Value.type) =
      some (.error (.unknownName "lost")) := by decide +kernel
  obtain ⟨⟨r, t⟩, hends, heq⟩ := Option.map_eq_some_iff.mp hrun
  cases r with
  | ok v => cases heq
  | error e =>
    cases heq
    exact ⟨t, hends, by decide, (error_truthful 2 lostMachine t _).1 lostProgram 0 hends⟩

end ClosureLang
