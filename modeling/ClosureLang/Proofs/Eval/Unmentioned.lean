import ClosureLang.Proofs.Eval.Alike
import ClosureLang.Proofs.Eval.Depth
import ClosureLang.Proofs.Store.Bindings

/-!
# Names that nothing mentions

A name that occurs neither in a program nor in a function of the store is never looked up and never
bound, however many functions the program makes and calls. Let such a name be bound to anything in
any scope. The stores with and without the binding are alike if the name does not count
(`Store.SameBut.alike`), so the program goes alike on both, and as every scope corresponds to itself
the outcomes are the same.

That the name is not bound either is a second fact, about one evaluation: each step leaves its
bindings as they are in every scope (`Eval.Spares`). A function that is called has to be like itself
for this, which says that it does not mention the name.
-/

namespace ClosureLang

variable {τ α β : Type} {x : String}

/-! ## Hiding a name -/

/-- Every scope corresponds to itself, and all names count but one. -/
def Matching.hiding (x : String) : Matching where
  Scopes := Eq
  Visible n := n ≠ x
  lt_iff := by
    rintro i j _ _ rfl rfl
    rfl

mutual

/-- Values that are alike are the same if every scope corresponds to itself. -/
theorem Value.Alike.eq_of_hiding : ∀ {v w : Value τ}, v.Alike (.hiding x) w → v = w
  | _, _, .null => rfl
  | _, _, .int _ => rfl
  | _, _, .bool _ => rfl
  | _, _, .text _ => rfl
  | _, _, .array h => by rw [items_eq_of_hiding h]
  | _, _, .hash h => by rw [entries_eq_of_hiding h]
  | _, _, .closure h _ => by rw [show _ = _ from h]
  | _, _, .builtin _ => rfl

theorem items_eq_of_hiding : ∀ {vs ws : List (Value τ)},
    List.Forall₂ (Value.Alike (.hiding x)) vs ws → vs = ws
  | _, _, .nil => rfl
  | _, _, .cons h hs => by rw [h.eq_of_hiding, items_eq_of_hiding hs]

theorem entries_eq_of_hiding : ∀ {es fs : List (Key × Value τ)},
    List.Forall₂ (EntryAlike (.hiding x)) es fs → es = fs
  | _, _, .nil => rfl
  | _, _, .cons (.mk h) hs => by rw [h.eq_of_hiding, entries_eq_of_hiding hs]

end

/-! ## Stores that differ in one name -/

namespace Store

/-- The scope around a scope. -/
def outer? (s : Store τ) (i : ScopeId) : Option (Option ScopeId) := s.scopes[i]?.map Scope.outer

/-- A function that is bound in some scope, itself or inside a value, mentions a name. A function
that is bound to the name itself need not count: it cannot be reached without the name. -/
def Mentions (s : Store τ) (x : String) : Prop :=
  ∃ i n v, n ≠ x ∧ s.binding i n = some v ∧ ∃ f ∈ v.closures, x ∈ f.names

/-- Stores with the same scopes, in which all names but one have the same bindings. -/
structure SameBut (x : String) (s t : Store τ) : Prop where
  size : t.scopes.size = s.scopes.size
  outer : ∀ i, t.outer? i = s.outer? i
  binding : ∀ i n, n ≠ x → t.binding i n = s.binding i n

namespace SameBut

variable {s t : Store τ}

theorem refl (s : Store τ) : s.SameBut x s := ⟨rfl, fun _ => rfl, fun _ _ _ => rfl⟩

theorem define (s : Store τ) (d : ScopeId) (v : Value τ) : s.SameBut x (s.define d x v) where
  size := size_define s d x v
  outer i := by
    unfold outer?
    rw [getElem?_define]
    split
    · rw [Option.map_map]
      rfl
    · rfl
  binding i n hn := by
    rw [binding_define, if_neg fun h => hn h.2.1.symm]

/-- A name is mentioned by what other names are bound to, so its own bindings do not matter. -/
theorem mentions_iff (h : s.SameBut x t) : t.Mentions x ↔ s.Mentions x := by
  unfold Mentions
  refine exists_congr fun i => exists_congr fun n => exists_congr fun v => ?_
  refine and_congr_right fun hn => ?_
  rw [h.binding i n hn]

/-- **Stores that differ in one name only are alike if it does not count**, and no function mentions
it. -/
theorem alike (h : s.SameBut x t) (hs : ¬ s.Mentions x) : s.Alike (.hiding x) t where
  fresh k := by
    show s.scopes.size + k = t.scopes.size + k
    rw [h.size]
  scopes i j c c' hij hc hc' := by
    obtain rfl : i = j := hij
    refine ⟨fun n hn => ?_, ?_⟩
    · have hsame := h.binding i n hn
      have hbinding := binding_of_getElem? hc n
      rw [binding_of_getElem? hc', hbinding] at hsame
      rw [hsame]
      cases hw : c.bindings.lookup n with
      | none => exact .none
      | some w =>
        refine .some (w.alike_self fun f hf => ⟨rfl, ?_⟩)
        rintro m hm rfl
        exact hs ⟨i, n, w, hn, hbinding.trans hw, f, hf, hm⟩
    · have houter := h.outer i
      rw [outer?, outer?, hc, hc', Option.map_some, Option.map_some, Option.some_inj] at houter
      rw [houter]
      cases c.outer with
      | none => exact .unlinked
      | some o => exact .linked rfl

end SameBut

/-- Stores that are alike if a name does not count differ in that name only. -/
theorem Alike.sameBut {s t : Store τ} (h : s.Alike (.hiding x) t) : s.SameBut x t where
  size := h.next.symm
  outer i := by
    have hscopes := h.getElem? (Eq.refl i)
    unfold outer?
    generalize s.scopes[i]? = oc at hscopes
    generalize t.scopes[i]? = od at hscopes
    cases hscopes with
    | none => rfl
    | @some c d hcd =>
      have houter := hcd.outer
      rw [Option.map_some, Option.map_some]
      generalize c.outer = o at houter
      generalize d.outer = p at houter
      cases houter with
      | unlinked => rfl
      | linked hkl => rw [show _ = _ from hkl]
      | @empty l hno _ => exact (hno l rfl).elim
  binding i n hn := by
    have hscopes := h.getElem? (Eq.refl i)
    unfold binding
    generalize s.scopes[i]? = oc at hscopes
    generalize t.scopes[i]? = od at hscopes
    cases hscopes with
    | none => rfl
    | @some c d hcd =>
      have hbindings := hcd.bindings n hn
      rw [Option.bind_some, Option.bind_some]
      generalize c.bindings.lookup n = ov at hbindings
      generalize d.bindings.lookup n = ow at hbindings
      cases hbindings with
      | none => rfl
      | some hvw => rw [hvw.eq_of_hiding]

end Store

/-! ## Evaluations that leave a name alone -/

/-- No scope binds a name to anything else than before. -/
def Store.Spares (x : String) (s t : Store τ) : Prop := ∀ i, t.binding i x = s.binding i x

namespace Store.Spares

theorem trans {s t u : Store τ} (hst : s.Spares x t) (htu : t.Spares x u) : s.Spares x u :=
  fun i => (htu i).trans (hst i)

theorem define (s : Store τ) (scope : ScopeId) {n : String} (hn : n ≠ x) (v : Value τ) :
    s.Spares x (s.define scope n v) := by
  intro i
  rw [binding_define, if_neg fun h => hn h.2.1]

/-- Binding parameters spares a name that is none of them. -/
theorem foldl_define (scope : ScopeId) {bindings : List (String × Value τ)}
    (h : ∀ e ∈ bindings, e.1 ≠ x) (s : Store τ) :
    s.Spares x (bindings.foldl (fun u e => u.define scope e.1 e.2) s) := by
  induction bindings generalizing s with
  | nil => exact fun _ => rfl
  | cons e bindings ih =>
    rw [List.forall_mem_cons] at h
    exact (define s scope h.1 e.2).trans (ih h.2 _)

end Store.Spares

/-- An evaluation, begun on a store that is like itself, leaves a name alone. -/
def Eval.Spares (x : String) (e : Eval τ α) : Prop :=
  ∀ ⦃s r t⦄, s.store.Alike (.hiding x) s.store → e s = some (r, t) → s.store.Spares x t.store

namespace Eval.Spares

/-- What does not change the store. -/
theorem of_store {e : Eval τ α} (h : ∀ s r t, e s = some (r, t) → t.store = s.store) :
    e.Spares x := by
  intro s r t _ hend i
  rw [h s r t hend]

theorem pure (a : α) : (Pure.pure a : Eval τ α).Spares x := of_store fun s r t h => by
  cases h
  rfl

theorem exit (r : Exit τ) : (Eval.exit r : Eval τ α).Spares x := of_store fun s r t h => by
  cases h
  rfl

theorem tooDeep : (Eval.tooDeep : Eval τ α).Spares x := of_store fun s r t h => by
  cases h

theorem lift (r : Except EvalError α) : (Eval.lift r : Eval τ α).Spares x :=
  of_store fun s r t h => by
    cases h
    rfl

theorem record (c : CallEvent) : (Eval.record c : Eval τ Unit).Spares x := of_store fun s r t h => by
  cases h
  rfl

theorem name (scope : ScopeId) (n : String) : (Eval.name scope n : Eval τ (Value τ)).Spares x := by
  refine of_store fun s r t h => ?_
  unfold Eval.name at h
  split at h
  · cases h
    rfl
  · split at h <;> cases h <;> rfl

theorem define (scope : ScopeId) {n : String} (hn : n ≠ x) (v : Value τ) :
    (Eval.define scope n v).Spares x := by
  intro s r t _ h
  cases h
  exact .define _ scope hn v

/-- One evaluation after another. The first one goes alike with itself, so what it gives and the
store that it leaves are like themselves. -/
theorem bind {e : Eval τ α} {f : α → Eval τ β} {P : α → α → Prop} (he : e.Spares x)
    (halike : Eval.Alike (.hiding x) P e e) (hf : ∀ a, P a a → (f a).Spares x) :
    (e >>= f).Spares x := by
  intro s r t hs h
  rcases bind_cases h with ⟨a, u, hes, hfu⟩ | ⟨y, hes, -⟩
  · have hgo := halike hs
    rw [hes] at hgo
    cases hgo with
    | both hend hu =>
      cases hend with
      | ok ha => exact (he hs hes).trans (hf a ha hu hfu)
  · exact he hs hes

end Eval.Spares

/-! ### Trees -/

/-- A caller that leaves a name alone if what it calls does not mention it. -/
def Caller.Spares (x : String) (call : Caller τ) : Prop :=
  ∀ ⦃f args⦄, f.Alike (.hiding x) f → List.Forall₂ (Value.Alike (.hiding x)) args args →
    (call f args).Spares x

section Trees

variable {call : Caller τ} {scope : ScopeId}

mutual

/-- **An expression that does not mention a name leaves it alone**, if calls do. -/
theorem Expr.eval_spares (hcall : Caller.Spares x call)
    (halike : Caller.Alike (.hiding x) call call) : ∀ y : Expr τ, (∀ n ∈ y.names, n ≠ x) →
    (y.eval call scope).Spares x
  | .name n, _ => .name scope n
  | .int _, _ => .pure _
  | .text _, _ => .pure _
  | .bool _, _ => .pure _
  | .array items, h => (evalExprs_spares hcall halike items h).bind
      (evalExprs_alike halike rfl items h) fun _ _ => .pure _
  | .hash pairs, h => (evalPairs_spares hcall halike pairs h .nil).bind
      (evalPairs_alike halike rfl pairs h .nil) fun _ _ => .pure _
  | .unary _ y, h => (y.eval_spares hcall halike h).bind (y.eval_alike halike rfl h)
      fun _ _ => .lift _
  | .binary _ y z, h => by
    rw [Expr.names, List.forall_mem_append] at h
    exact (y.eval_spares hcall halike h.1).bind (y.eval_alike halike rfl h.1) fun _ _ =>
      (z.eval_spares hcall halike h.2).bind (z.eval_alike halike rfl h.2) fun _ _ => .lift _
  | .cond c yes none, h => by
    rw [Expr.names, List.forall_mem_append] at h
    refine (c.eval_spares hcall halike h.1).bind (c.eval_alike halike rfl h.1) fun v _ => ?_
    split
    · exact evalBlock_spares hcall halike yes h.2 .null
    · exact .pure _
  | .cond c yes (some no), h => by
    rw [Expr.names, List.forall_mem_append, List.forall_mem_append] at h
    refine (c.eval_spares hcall halike h.1).bind (c.eval_alike halike rfl h.1) fun v _ => ?_
    split
    · exact evalBlock_spares hcall halike yes h.2.1 .null
    · exact evalBlock_spares hcall halike no h.2.2 .null
  | .fn _ _ _, _ => .pure _
  | .call f args, h => by
    rw [Expr.names, List.forall_mem_append] at h
    exact (f.eval_spares hcall halike h.1).bind (f.eval_alike halike rfl h.1) fun _ hv =>
      (evalExprs_spares hcall halike args h.2).bind (evalExprs_alike halike rfl args h.2)
        fun _ hvs => hcall hv hvs
  | .index y z, h => by
    rw [Expr.names, List.forall_mem_append] at h
    exact (y.eval_spares hcall halike h.1).bind (y.eval_alike halike rfl h.1) fun _ _ =>
      (z.eval_spares hcall halike h.2).bind (z.eval_alike halike rfl h.2) fun _ _ => .lift _

theorem evalExprs_spares (hcall : Caller.Spares x call)
    (halike : Caller.Alike (.hiding x) call call) : ∀ ys : List (Expr τ),
    (∀ n ∈ namesOfExprs ys, n ≠ x) → (evalExprs call scope ys).Spares x
  | [], _ => .pure _
  | y :: ys, h => by
    rw [namesOfExprs, List.forall_mem_append] at h
    exact (y.eval_spares hcall halike h.1).bind (y.eval_alike halike rfl h.1) fun _ _ =>
      (evalExprs_spares hcall halike ys h.2).bind (evalExprs_alike halike rfl ys h.2)
        fun _ _ => .pure _

theorem evalPairs_spares (hcall : Caller.Spares x call)
    (halike : Caller.Alike (.hiding x) call call) : ∀ (ps : List (Expr τ × Expr τ))
    {es : List (Key × Stored τ)}, (∀ n ∈ namesOfPairs ps, n ≠ x) →
    List.Forall₂ (EntryAlike (.hiding x)) (entriesOf es) (entriesOf es) →
    (evalPairs call scope es ps).Spares x
  | [], _, _, _ => .pure _
  | (y, z) :: ps, es, h, hes => by
    rw [namesOfPairs, List.forall_mem_append, List.forall_mem_append] at h
    refine (y.eval_spares hcall halike h.1).bind (y.eval_alike halike rfl h.1) fun k hk => ?_
    refine (Eval.Spares.lift _).bind (.lift (Value.key_alike hk)) fun k _ => ?_
    refine (z.eval_spares hcall halike h.2.1).bind (z.eval_alike halike rfl h.2.1) fun v hv => ?_
    refine evalPairs_spares hcall halike ps h.2.2 ?_
    rw [entriesOf_insertEntry]
    exact insertEntry_alike k hv hes

/-- A block that does not mention the name does not touch its bindings. -/
theorem evalBlock_spares (hcall : Caller.Spares x call)
    (halike : Caller.Alike (.hiding x) call call) : ∀ (b : List (Stmt τ)) {last : Value τ},
    (∀ n ∈ namesOfBlock b, n ≠ x) → last.Alike (.hiding x) last →
    (evalBlock call scope last b).Spares x
  | [], _, _, _ => .pure _
  | s :: b, _, h, _ => by
    rw [namesOfBlock, List.forall_mem_append] at h
    exact (s.eval_spares hcall halike h.1).bind (s.eval_alike halike rfl h.1) fun _ hv =>
      evalBlock_spares hcall halike b h.2 hv

theorem Stmt.eval_spares (hcall : Caller.Spares x call)
    (halike : Caller.Alike (.hiding x) call call) : ∀ s : Stmt τ, (∀ n ∈ s.names, n ≠ x) →
    (s.eval call scope).Spares x
  | .bind n y, h => by
    rw [Stmt.names, List.forall_mem_cons] at h
    exact (y.eval_spares hcall halike h.2).bind (y.eval_alike halike rfl h.2) fun v hv =>
      (Eval.Spares.define scope h.1 v).bind (.define rfl hv n) fun _ _ => .pure _
  | .ret y, h => (y.eval_spares hcall halike h).bind (y.eval_alike halike rfl h) fun _ _ => .exit _
  | .expr y, h => y.eval_spares hcall halike h

end

end Trees

/-! ### Calls -/

/-- The body of a closure starts with its parameters bound, none of which is the name. -/
theorem Closure.start_spares {f : Closure τ} (hf : ∀ n ∈ f.params, n ≠ x)
    (args : List (Value τ)) (s : Machine τ) : s.store.Spares x (f.start args s).store := by
  have hadd : s.store.Spares x (s.store.add (some f.scope)).2 :=
    fun i => Store.binding_add s.store (some f.scope) i x
  refine hadd.trans (Store.Spares.foldl_define _ (fun e he => ?_) _)
  exact hf e.1 (List.of_mem_zip he).1

theorem Closure.enter_spares {call : Caller τ} (hcall : Caller.Spares x call)
    (halike : Caller.Alike (.hiding x) call call) {f : Closure τ} (hf : ∀ n ∈ f.names, n ≠ x)
    {args : List (Value τ)} (hargs : List.Forall₂ (Value.Alike (.hiding x)) args args) :
    (f.enter call args).Spares x := by
  intro s r t hs h
  rw [enter_eq] at h
  obtain ⟨⟨r', t'⟩, hbody, hend⟩ := Option.map_eq_some_iff.mp h
  cases hend
  rw [Closure.names, List.forall_mem_append] at hf
  have hstart := Closure.start_alike f.params f.body f.tag (Eq.refl f.scope) hargs hs
  exact (start_spares hf.1 args s).trans
    (evalBlock_spares hcall halike f.body hf.2 .null hstart hbody)

theorem applyWith_spares {enter : Closure τ → List (Value τ) → Eval τ (Value τ)}
    (henter : ∀ ⦃f args⦄, (∀ n ∈ f.names, n ≠ x) →
      List.Forall₂ (Value.Alike (.hiding x)) args args → (enter f args).Spares x) :
    Caller.Spares x (applyWith enter) := by
  intro f args hf hargs
  cases hf with
  | closure _ hnames =>
    simp only [applyWith]
    split
    · exact henter hnames hargs
    · exact .exit _
  | builtin f =>
    exact (Eval.Spares.record _).bind (.record _) fun _ _ => .lift _
  | _ => exact .exit _

/-- **Calls leave a name alone that the function and its arguments do not mention**, however deep
they nest. -/
theorem apply_spares (depth : Nat) : Caller.Spares x (apply depth : Caller τ) := by
  induction depth with
  | zero => exact applyWith_spares fun _ _ _ _ => .tooDeep
  | succ depth ih =>
    exact applyWith_spares fun _ _ hf hargs => Closure.enter_spares ih (apply_alike depth) hf hargs

/-! ## Programs -/

section Programs

variable {p : Program τ} {i j scope : ScopeId} {s t u : Machine τ}
  {r r' : Except EvalError (Value τ)}

/-- A program leaves a name alone that neither it nor the store mentions. -/
theorem Program.Ends.spares (h : p.Ends scope s r t) (hp : ∀ n ∈ namesOfBlock p, n ≠ x)
    (hs : ¬ s.store.Mentions x) : s.store.Spares x t.store := by
  obtain ⟨depth, hrun⟩ := h
  rw [p.run_eq] at hrun
  obtain ⟨⟨r', t'⟩, hend, heq⟩ := Option.map_eq_some_iff.mp hrun
  cases heq
  exact evalBlock_spares (apply_spares depth) (apply_alike depth) p hp .null
    ((Store.SameBut.refl _).alike hs) hend

/-- Runs that are the same at every depth both have an end or both have none. -/
theorem Program.ends_iff_of_rel {m : Matching}
    (h : ∀ depth, Option.Rel (SameRun m) (p.run depth i s) (p.run depth j t)) :
    (∃ r u, p.Ends i s r u) ↔ ∃ r u, p.Ends j t r u := by
  constructor
  · rintro ⟨r, u, depth, hrun⟩
    have hrel := h depth
    rw [hrun] at hrel
    generalize hother : p.run depth j t = o at hrel
    cases hrel with
    | @some _ y _ => exact ⟨y.1, y.2, depth, hother⟩
  · rintro ⟨r, u, depth, hrun⟩
    have hrel := h depth
    rw [hrun] at hrel
    generalize hother : p.run depth i s = o at hrel
    cases hrel with
    | @some y _ _ => exact ⟨y.1, y.2, depth, hother⟩

/-- The ends of such runs are the same, at whatever depth they were found. -/
theorem Program.Ends.sameRun {m : Matching} {u' : Machine τ} (hs : p.Ends i s r u)
    (ht : p.Ends j t r' u')
    (h : ∀ depth, Option.Rel (SameRun m) (p.run depth i s) (p.run depth j t)) :
    SameRun m (r, u) (r', u') := by
  obtain ⟨depth, hrun⟩ := hs
  have hrel := h depth
  rw [hrun] at hrel
  generalize hother : p.run depth j t = o at hrel
  cases hrel with
  | @some _ y hsame =>
    obtain ⟨rfl, rfl⟩ := Program.Ends.unique ⟨depth, hother⟩ ht
    exact hsame

/-- Outcomes that are alike are the same if every scope corresponds to itself. -/
theorem SameOutcome.eq_of_hiding (h : SameOutcome (Value.Alike (.hiding x)) r r') : r' = r := by
  cases h with
  | ok hvw => rw [hvw.eq_of_hiding]
  | error e => rfl

end Programs

/-- Defines a name in a scope before a program runs. -/
def Machine.define (s : Machine τ) (d : ScopeId) (x : String) (v : Value τ) : Machine τ :=
  { s with store := s.store.define d x v }

/-- **A name that nothing mentions can be bound without any effect.** Let a name occur neither in a
program nor in a function of the store, and let it be defined as any value in any scope before the
program runs. Then the program ends if and only if it ends without the definition. It has the same
value or error, makes the same scopes, and leaves the same bindings in every scope, but for the one
that was defined. -/
theorem unmentioned_name_has_no_effect {p : Program τ} {s : Machine τ} {d : ScopeId} (v : Value τ)
    (scope : ScopeId) (hp : x ∉ namesOfBlock p) (hs : ¬ s.store.Mentions x)
    (hd : d < s.store.scopes.size) :
    ((∃ r t, p.Ends scope s r t) ↔ ∃ r t, p.Ends scope (s.define d x v) r t) ∧
      ∀ r t r' t', p.Ends scope s r t → p.Ends scope (s.define d x v) r' t' →
        r' = r ∧ t.store.SameBut x t'.store ∧
          ∀ i, t'.store.binding i x = if i = d then some v else t.store.binding i x := by
  have hnames : ∀ n ∈ namesOfBlock p, n ≠ x := fun n hn => ne_of_mem_of_not_mem hn hp
  have hdefine : s.store.SameBut x (s.define d x v).store := .define s.store d v
  have hrel := Program.run_alike (i := scope) hnames rfl (hdefine.alike hs)
  refine ⟨Program.ends_iff_of_rel hrel, fun r t r' t' hends hends' => ?_⟩
  have hsame := hends.sameRun hends' hrel
  refine ⟨hsame.outcome.eq_of_hiding, hsame.store.sameBut, fun i => ?_⟩
  -- neither run has bound the name anywhere
  rw [hends'.spares hnames (mt hdefine.mentions_iff.mp hs) i, hends.spares hnames hs i,
    Machine.define, Store.binding_define]
  by_cases hi : i = d
  · subst hi
    rw [if_pos ⟨rfl, rfl, hd⟩, if_pos rfl]
  · rw [if_neg fun h => hi h.1.symm, if_neg hi]

/-- A machine with a function that makes functions. -/
def plusMachine : Machine Unit where
  store := (Store.empty.add none).2.define 0 "plus" (.closure
    ⟨["a"], [.expr (.fn () ["b"] [.expr (.binary .add (.name "a") (.name "b"))])], (), 0⟩)

/-- Makes a function and calls it. -/
def plusProgram : Program Unit :=
  [.bind "f" (.call (.name "plus") [.int 2]), .expr (.call (.name "f") [.int 3])]

/-- A function that calls itself by the name `z`. -/
def selfCaller : Value Unit := .closure ⟨["y"], [.expr (.call (.name "z") [.name "y"])], (), 0⟩

/-- Two calls later, with two scopes more, the name is bound where it was defined and nowhere
else. -/
theorem unmentioned_name_has_no_effect_plusMachine : ∃ r t t',
    plusProgram.Ends 0 plusMachine r t ∧
      plusProgram.Ends 0 (plusMachine.define 0 "z" selfCaller) r t' ∧
      r.map Value.display = .ok "5" ∧ t'.store.scopes.size = 3 ∧
      t.store.SameBut "z" t'.store ∧
      ∀ i, t'.store.binding i "z" = if i = 0 then some selfCaller else t.store.binding i "z" := by
  have hstore : ¬ plusMachine.store.Mentions "z" := by
    rintro ⟨i, n, v, -, hbinding, f, hf, hz⟩
    rw [plusMachine, Store.binding_define, Store.binding_add] at hbinding
    split at hbinding
    · cases hbinding
      cases List.mem_singleton.mp hf
      revert hz
      decide
    · cases hbinding
  have hrun : (plusProgram.run 1 0 plusMachine).map
      (fun e => (e.1.map Value.display, e.2.store.scopes.size)) = some (.ok "5", 3) := by
    decide +kernel
  obtain ⟨⟨r, t⟩, hends, heq⟩ := Option.map_eq_some_iff.mp hrun
  obtain ⟨hdisplay, hsize⟩ := Prod.mk.inj heq
  obtain ⟨hiff, hall⟩ := unmentioned_name_has_no_effect selfCaller 0
    (show "z" ∉ namesOfBlock plusProgram by decide) hstore (show 0 < 1 from Nat.one_pos)
  obtain ⟨r', t', hends'⟩ := hiff.mp ⟨r, t, 1, hends⟩
  obtain ⟨rfl, hsame, hz⟩ := hall r t r' t' ⟨1, hends⟩ hends'
  exact ⟨r', t, t', ⟨1, hends⟩, hends', hdisplay, hsame.size.trans hsize, hsame, hz⟩

end ClosureLang
